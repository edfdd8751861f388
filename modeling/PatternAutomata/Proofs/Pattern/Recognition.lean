import PatternAutomata.Proofs.Pattern.Spelling
/-!
# Recognition — every pattern of the grammar is read, as what it means

What stands before a text decides nothing about how it is read: on any stack an item is read as one operand, on any
floor a branch as the items above it, and in any group or at the start what may stand there as its content.  This is
shown production by production (`recognized_of_derives`), with the patterns that the entries on top stand for.  So a
derived text is read as a pattern interchangeable with the derivation's tree (`exists_read`), and together with what the
stack spells this says that the reader takes the grammar's texts, no others, and gives each the words of its tree
(`read_iff_derives`).
-/
namespace PatternAutomata
namespace Pattern

variable {stack stack' : List Entry} {s t text : List Char} {offset : Nat} {c : Char} {p q : Pattern}
  {mode mode' : Mode}

namespace Reader

theorem steps_cons (h : next offset stack c mode = .ok (stack', mode')) :
    (Reader.mk stack mode offset).steps (c :: t) = (Reader.mk stack' mode' (offset + c.utf8Size)).steps t := by
  have hstep : (Reader.mk stack mode offset).step c = .ok ⟨stack', mode', offset + c.utf8Size⟩ := by
    rw [step, h]
    rfl
  rw [steps, hstep]
  rfl

theorem steps_append_of_ok {r r' : Reader} (h : r.steps s = .ok r') : r.steps (s ++ t) = r'.steps t := by
  rw [steps_append, h]
  rfl

/-- A bar ends its branch when the next character comes. -/
theorem steps_bar {barOffset : Nat} (h : endBranch barOffset stack = .ok stack') (ht : t ≠ []) :
    (Reader.mk stack (.bar barOffset) offset).steps t = (Reader.mk stack' .items offset).steps t := by
  obtain ⟨c, t, rfl⟩ := List.exists_cons_of_ne_nil ht
  have hnext : next offset stack c (.bar barOffset) = next offset stack' c .items := by
    show (endBranch barOffset stack).bind (readItem offset · c) = readItem offset stack' c
    rw [h]
    rfl
  rw [steps, steps, step, step, hnext]

end Reader

/-! ## What reading a text amounts to -/

/-- On any stack the text is read as one operand, which is interchangeable with `q`. -/
def ReadAsItem (t : List Char) (q : Pattern) : Prop :=
  ∀ stack offset, ∃ stack' offset' p, (Reader.mk stack .items offset).steps t = .ok ⟨stack', .items, offset'⟩ ∧
    Tops stack p stack' ∧ p.Interchangeable q

def ReadAsBranch (t : List Char) (q : Pattern) : Prop :=
  ∀ stack offset, IsFloor stack → ∃ stack' offset',
    (Reader.mk stack .items offset).steps t = .ok ⟨stack', .items, offset'⟩ ∧
      ¬IsFloor stack' ∧ floor stack' = stack ∧ (joined seq (held stack')).Interchangeable q

def ReadAsBranches (t : List Char) (q : Pattern) : Prop :=
  ∀ stack offset, Grounded stack → ∃ stack' offset',
    (Reader.mk stack .items offset).steps t = .ok ⟨stack', .items, offset'⟩ ∧
      ¬IsFloor stack' ∧ ground stack' = stack ∧ (joined alt (offered stack')).Interchangeable q

def ReadAsPattern (t : List Char) (q : Pattern) : Prop :=
  ∀ stack offset, Grounded stack → ∃ stack' offset',
    (Reader.mk stack .items offset).steps t = .ok ⟨stack', .items, offset'⟩ ∧
      ∀ endOffset, ∃ content, takeContent endOffset stack' = .ok (content, stack) ∧
        (content.getD (word [])).Interchangeable q

def Recognized : Symbol → List Char → Pattern → Prop
  | .pattern => ReadAsPattern
  | .branches => ReadAsBranches
  | .branch => ReadAsBranch
  | .item => ReadAsItem
  | .atom => ReadAsItem

open Reader

/-! ## Items -/

theorem readItem_of_not_sign (h : c ∉ signs) : readItem offset stack c = .ok (pushChar c stack, .items) := by
  unfold readItem
  split
  case h_11 => rfl
  all_goals exact absurd (by decide) h

theorem readAsItem_char (h : c ∉ signs) : ReadAsItem [c] (word [c]) := fun stack _ =>
  ⟨_, _, _, steps_cons (readItem_of_not_sign h), tops_pushChar c stack, .refl _⟩

/-- A sign that stands for `f` makes a longer item. -/
theorem ReadAsItem.repeated {f : Pattern → Pattern} (h : ReadAsItem t q)
    (hsign : ∀ {stack offset p stack'}, Tops stack p stack' →
      next offset stack' c .items = .ok (.item (f p) :: stack, .items))
    (hf : ∀ {p q : Pattern}, p.Interchangeable q → (f p).Interchangeable (f q)) :
    ReadAsItem (t ++ [c]) (f q) := by
  intro stack offset
  obtain ⟨stack', offset', p, hsteps, htops, hp⟩ := h stack offset
  refine ⟨.item (f p) :: stack, offset' + c.utf8Size, f p, ?_, .item (f p) stack, hf hp⟩
  rw [steps_append_of_ok hsteps, steps_cons (hsign htops)]
  rfl

theorem ReadAsItem.star (h : ReadAsItem t q) : ReadAsItem (t ++ ['*']) (star q) := by
  refine h.repeated (fun htops => ?_) Interchangeable.star
  rw [next, readItem, takeOperand_eq_ok.2 htops]
  rfl

theorem ReadAsItem.plus (h : ReadAsItem t q) : ReadAsItem (t ++ ['+']) (seq q (.star q)) := by
  refine h.repeated (f := fun p => seq p (.star p)) (fun htops => ?_) fun hpq => hpq.seq hpq.star
  rw [next, readItem, takeOperand_eq_ok.2 htops]
  rfl

theorem ReadAsItem.optional (h : ReadAsItem t q) : ReadAsItem (t ++ ['?']) (count q .optional) := by
  refine h.repeated (f := fun p => count p .optional) (fun htops => ?_) Interchangeable.count
  rw [next, readItem, takeOperand_eq_ok.2 htops]
  rfl

/-! ## Counts -/

/-- Digits are collected in the mode that they are read in. -/
theorem steps_digits {m : List Char → Mode}
    (hm : ∀ offset d ds, d.isDigit = true → next offset stack d (m ds) = .ok (stack, m (ds ++ [d]))) :
    ∀ (digits read : List Char) {offset : Nat}, (∀ d ∈ digits, d.isDigit = true) → ∃ offset',
      (Reader.mk stack (m read) offset).steps (digits ++ t) = (Reader.mk stack (m (read ++ digits)) offset').steps t
  | [], read, offset, _ => ⟨offset, by rw [List.append_nil]; rfl⟩
  | d :: digits, read, offset, h => by
    obtain ⟨hd, h⟩ := List.forall_mem_cons.1 h
    obtain ⟨offset', hsteps⟩ := steps_digits hm digits (read ++ [d]) h
    rw [List.append_assoc] at hsteps
    exact ⟨offset', (steps_cons (hm offset d read hd)).trans hsteps⟩

theorem exists_readCount {digits : List Char} {n : Nat} (h : Numeral digits n) (hn : n < UInt32.size) :
    ∃ m : UInt32, m.toNat = n ∧ readCount? digits = some m := by
  have hm : (UInt32.ofNat n).toNat = n := UInt32.toNat_ofNat_of_lt hn
  exact ⟨_, hm, (readCount?_eq_some h.isDigit).2 (hm.symm ▸ h)⟩

section

variable {opened start : Nat} {least : UInt32} {digits : List Char}

theorem next_least_digit (hc : c.isDigit = true) :
    next offset stack c (.least p opened start digits) = .ok (stack, .least p opened start (digits ++ [c])) :=
  if_pos hc

theorem next_greatest_digit (hc : c.isDigit = true) :
    next offset stack c (.greatest p opened least start digits) =
      .ok (stack, .greatest p opened least start (digits ++ [c])) :=
  if_pos hc

theorem next_comma (h : readCount? digits = some least) :
    next offset stack ',' (.least p opened start digits) =
      .ok (stack, .greatest p opened least (offset + ','.utf8Size) []) := by
  have hend : endCount ',' start digits offset ',' = .ok least := endCount_eq_ok.2 ⟨h, rfl⟩
  show (endCount ',' start digits offset ',').bind _ = _
  rw [hend]
  rfl

theorem next_brace {greatest : UInt32} {times : Bounds} (h : readCount? digits = some greatest)
    (hleast : times.least = least.toNat) (hgreatest : times.greatest = greatest.toNat) :
    next offset stack '}' (.greatest p opened least start digits) = .ok (.item (count p times) :: stack, .items) := by
  have hend : endCount '}' start digits offset '}' = .ok greatest := endCount_eq_ok.2 ⟨h, rfl⟩
  have hcounted : counted p opened least greatest = .ok (count p times) :=
    counted_eq_ok.2 ⟨times, hleast, hgreatest, rfl⟩
  show ((endCount '}' start digits offset '}').bind fun n => (counted p opened least n).bind _) = _
  rw [hend]
  show (counted p opened least greatest).bind _ = _
  rw [hcounted]
  rfl

end

theorem steps_count {least greatest : List Char} {times : Bounds} {opened start : Nat}
    (hleast : Numeral least times.least) (hgreatest : Numeral greatest times.greatest) :
    ∃ offset', (Reader.mk stack (.least p opened start []) offset).steps (least ++ ',' :: (greatest ++ ['}'])) =
      .ok ⟨.item (count p times) :: stack, .items, offset'⟩ := by
  obtain ⟨l, hl, hl'⟩ := exists_readCount hleast (Nat.lt_of_le_of_lt times.least_le_greatest times.greatest_lt)
  obtain ⟨g, hg, hg'⟩ := exists_readCount hgreatest times.greatest_lt
  obtain ⟨offset₁, h₁⟩ := steps_digits (m := Mode.least p opened start) (fun _ _ _ => next_least_digit) least []
    hleast.isDigit
  obtain ⟨offset₂, h₂⟩ := steps_digits (m := Mode.greatest p opened l _) (fun _ _ _ => next_greatest_digit)
    greatest [] hgreatest.isDigit
  rw [h₁, List.nil_append, steps_cons (next_comma hl'), h₂, List.nil_append,
    steps_cons (next_brace hg' hl.symm hg.symm)]
  exact ⟨_, rfl⟩

theorem readAsItem_count {least greatest : List Char} {times : Bounds} (h : ReadAsItem t q)
    (hleast : Numeral least times.least) (hgreatest : Numeral greatest times.greatest) :
    ReadAsItem (t ++ '{' :: least ++ ',' :: greatest ++ ['}']) (count q times) := by
  intro stack offset
  obtain ⟨stack', offset', p, hsteps, htops, hp⟩ := h stack offset
  have hopen : next offset' stack' '{' .items = .ok (stack, .least p offset' (offset' + '{'.utf8Size) []) := by
    rw [next, readItem, takeOperand_eq_ok.2 htops]
    rfl
  obtain ⟨offset₁, h₁⟩ := steps_count hleast hgreatest
  refine ⟨.item (count p times) :: stack, offset₁, count p times, ?_, .item _ stack, hp.count⟩
  rw [List.append_assoc, List.append_assoc, steps_append_of_ok hsteps]
  exact (steps_cons hopen).trans h₁

/-! ## Classes -/

theorem next_member {opened : Nat} {intervals : List Interval} {last : Option Char} (h : c ∉ '-' :: brackets) :
    next offset stack c (.members opened intervals last) =
      .ok (stack, .members opened (withLast last intervals) (some c)) := by
  dsimp only [next]
  split
  case h_6 => rfl
  all_goals exact absurd (by decide) h

theorem next_rangeEnd {opened : Nat} {intervals : List Interval} {lo : Char} (hc : c ∉ brackets) (h : lo ≤ c) :
    next offset stack c (.rangeEnd opened intervals lo) =
      .ok (stack, .members opened (⟨lo, c, h⟩ :: intervals) none) := by
  have hread : readRangeEnd offset lo c = .ok ⟨lo, c, h⟩ := readRangeEnd_eq_ok.2 ⟨hc, h, rfl⟩
  show (readRangeEnd offset lo c).bind _ = _
  rw [hread]
  rfl

/-- All that a class holds is collected, its last character perhaps still apart. -/
theorem steps_members {opened : Nat} {intervals : List Interval} (h : Members t intervals) :
    ∃ collected last offset', (Reader.mk stack (.members opened [] none) offset).steps t =
      .ok ⟨stack, .members opened collected last, offset'⟩ ∧ withLast last collected = intervals := by
  induction h with
  | nil => exact ⟨[], none, offset, rfl, rfl⟩
  | @char t intervals c _ hc ih =>
    obtain ⟨collected, last, offset', hsteps, rfl⟩ := ih
    refine ⟨withLast last collected, some c, offset' + c.utf8Size, ?_, rfl⟩
    rw [steps_append_of_ok hsteps, steps_cons (next_member hc)]
    rfl
  | @range t intervals lo hi _ hlo hhi hle ih =>
    obtain ⟨collected, last, offset', hsteps, rfl⟩ := ih
    refine ⟨⟨lo, hi, hle⟩ :: withLast last collected, none, offset' + lo.utf8Size + '-'.utf8Size + hi.utf8Size, ?_, rfl⟩
    have hhyphen {o : Nat} : next o stack '-' (.members opened (withLast last collected) (some lo)) =
        .ok (stack, .rangeEnd opened (withLast last collected) lo) := rfl
    rw [steps_append_of_ok hsteps, steps_cons (next_member hlo), steps_cons hhyphen, steps_cons (next_rangeEnd hhi hle)]
    rfl

/-- The runs of a class are interchangeable with its characters. -/
theorem exists_ofClass {opened : Nat} {intervals : List Interval} (h : intervals ≠ []) :
    ∃ p, ofClass opened intervals = .ok p ∧ p.Interchangeable (oneOf intervals) := by
  have hruns : Interval.compact intervals ≠ [] := by
    obtain ⟨i, rest, rfl⟩ := List.exists_cons_of_ne_nil h
    have hi : Interval.Covers (i :: rest) i.lo := ⟨i, List.mem_cons_self, i.lo_mem⟩
    obtain ⟨j, hj, -⟩ := Interval.covers_compact.2 hi
    exact List.ne_nil_of_mem hj
  have hne : ((Interval.compact intervals).map fun i => oneOf [i]) ≠ [] := mt List.map_eq_nil_iff.1 hruns
  obtain ⟨p, hp⟩ := exists_balanced alt hne
  refine ⟨p, by rw [ofClass, hp], (joins_alt.balanced hp).trans ((joined_oneOf hruns).trans ?_)⟩
  exact interchangeable_oneOf fun _ => Interval.covers_compact

theorem readAsItem_oneOf {intervals : List Interval} (h : Members t intervals) (ht : t ≠ []) :
    ReadAsItem ('[' :: t ++ [']']) (oneOf intervals) := by
  intro stack offset
  obtain ⟨collected, last, offset', hsteps, rfl⟩ := steps_members h
  obtain ⟨p, hclass, hp⟩ := exists_ofClass (mt h.eq_nil_iff.2 ht)
  refine ⟨.item p :: stack, offset' + ']'.utf8Size, p, ?_, .item p stack, hp⟩
  have hclose : next offset' stack ']' (.members offset collected last) = .ok (.item p :: stack, .items) := by
    show (ofClass offset (withLast last collected)).bind _ = _
    rw [hclass]
    rfl
  have hopen : next offset stack '[' .items = .ok (stack, .members offset [] none) := rfl
  rw [List.cons_append, steps_cons hopen, steps_append_of_ok hsteps, steps_cons hclose]
  rfl

/-! ## Groups, branches and whole patterns -/

theorem ReadAsPattern.group (h : ReadAsPattern t q) : ReadAsItem ('(' :: t ++ [')']) q := by
  intro stack offset
  obtain ⟨stack', offset', hsteps, hcontent⟩ := h (.group offset :: stack) (offset + '('.utf8Size) trivial
  obtain ⟨content, htake, hp⟩ := hcontent offset'
  refine ⟨.item (content.getD (word [])) :: stack, offset' + ')'.utf8Size, _, ?_, .item _ stack, hp⟩
  have hclose : next offset' stack' ')' .items = .ok (.item (content.getD (word [])) :: stack, .items) := by
    rw [next, readItem, endGroup, htake]
    rfl
  have hopen : next offset stack '(' .items = .ok (.group offset :: stack, .items) := rfl
  rw [List.cons_append, steps_cons hopen, steps_append_of_ok hsteps, steps_cons hclose]
  rfl

theorem ReadAsItem.branch (h : ReadAsItem t q) : ReadAsBranch t q := by
  intro stack offset hstack
  obtain ⟨stack', offset', p, hsteps, htops, hp⟩ := h stack offset
  have hheld := htops.held
  rw [held_of_isFloor hstack] at hheld
  exact ⟨stack', offset', hsteps, htops.not_isFloor, htops.floor_eq.trans (floor_of_isFloor hstack), hheld.trans hp⟩

theorem ReadAsBranch.seq (hs : ReadAsBranch s p) (ht : ReadAsItem t q) : ReadAsBranch (s ++ t) (seq p q) := by
  intro stack offset hstack
  obtain ⟨stack₁, offset₁, hsteps₁, hitems, hfloor, hp⟩ := hs stack offset hstack
  obtain ⟨stack₂, offset₂, r, hsteps₂, htops, hr⟩ := ht stack₁ offset₁
  refine ⟨stack₂, offset₂, (steps_append_of_ok hsteps₁).trans hsteps₂, htops.not_isFloor, htops.floor_eq.trans hfloor,
    htops.held.trans ?_⟩
  exact (joins_seq.append (held_ne_nil hitems) (List.cons_ne_nil r [])).trans (hp.seq hr)

theorem ReadAsBranch.branches (h : ReadAsBranch t q) : ReadAsBranches t q := by
  intro stack offset hstack
  obtain ⟨stack', offset', hsteps, hitems, rfl, hq⟩ := h stack offset hstack.isFloor
  refine ⟨stack', offset', hsteps, hitems, ground_of_grounded hstack, ?_⟩
  rw [offered_of_grounded hstack]
  exact hq

/-- The branches before a bar and the one behind it are offered together. -/
theorem ReadAsBranches.alt (hs : ReadAsBranches s p) (ht : ReadAsBranch t q) (hne : t ≠ []) :
    ReadAsBranches (s ++ '|' :: t) (alt p q) := by
  intro stack offset hstack
  obtain ⟨stack₁, offset₁, hsteps₁, hitems₁, rfl, hp⟩ := hs stack offset hstack
  obtain ⟨ps, hend, hps, hoffered⟩ := endBranch_of_items hitems₁
  obtain ⟨stack₂, offset₂, hsteps₂, hitems₂, hfloor, hq⟩ :=
    ht (.branches ps :: ground stack₁) (offset₁ + '|'.utf8Size) trivial
  refine ⟨stack₂, offset₂, ?_, hitems₂, ground_of_branches hfloor, ?_⟩
  · -- the branch before the bar ends with the first character behind it
    have hbar : next offset₁ stack₁ '|' .items = .ok (stack₁, .bar offset₁) := rfl
    rw [steps_append_of_ok hsteps₁, steps_cons hbar, steps_bar hend hne, hsteps₂]
  · rw [offered_of_branches hfloor]
    refine (joins_alt.append (mt List.reverse_eq_nil_iff.1 hps) (List.cons_ne_nil _ [])).trans ?_
    exact (hoffered.trans hp).alt hq

theorem ReadAsBranches.pattern (h : ReadAsBranches t q) : ReadAsPattern t q := by
  intro stack offset hstack
  obtain ⟨stack', offset', hsteps, hitems, rfl, hq⟩ := h stack offset hstack
  refine ⟨stack', offset', hsteps, fun endOffset => ?_⟩
  obtain ⟨p, htake, hp⟩ := takeContent_of_items hitems
  exact ⟨some p, htake, hp.trans hq⟩

theorem readAsPattern_empty : ReadAsPattern [] (word []) := fun stack offset hstack =>
  ⟨stack, offset, rfl, fun _ => ⟨none, takeContent_of_grounded hstack, .refl _⟩⟩

/-- **Every production is read as what it stands for.** -/
theorem recognized_of_derives {x : Symbol} (h : Derives x text q) : Recognized x text q := by
  induction h with
  | empty => exact readAsPattern_empty
  | pattern _ ih => exact ReadAsBranches.pattern ih
  | branch _ ih => exact ReadAsBranch.branches ih
  | alt _ ht ihs iht => exact ReadAsBranches.alt ihs iht (ht.ne_nil nofun)
  | item _ ih => exact ReadAsItem.branch ih
  | seq _ _ ihs iht => exact ReadAsBranch.seq ihs iht
  | atom _ ih => exact ih
  | star _ ih => exact ReadAsItem.star ih
  | plus _ ih => exact ReadAsItem.plus ih
  | optional _ ih => exact ReadAsItem.optional ih
  | count _ hleast hgreatest ih => exact readAsItem_count ih hleast hgreatest
  | char hc => exact readAsItem_char hc
  | group _ ih => exact ReadAsPattern.group ih
  | oneOf h ht => exact readAsItem_oneOf h ht

/-- **What is derived is read**, as a pattern that is interchangeable with the tree of the derivation. -/
theorem exists_read (h : Derives .pattern text q) : ∃ p, read text = .ok p ∧ p.Interchangeable q := by
  obtain ⟨stack, offset, hsteps, hcontent⟩ := recognized_of_derives h [] 0 trivial
  obtain ⟨content, htake, hp⟩ := hcontent offset
  refine ⟨_, ?_, hp⟩
  show (Reader.start.steps text).bind finish = _
  rw [Reader.start, hsteps]
  show (takeContent offset stack).bind _ = _
  rw [htake]
  rfl

theorem read_of_derives (h : Derives .pattern text q) : ∃ p, read text = .ok p ∧ ∀ w, p.Matches w ↔ q.Matches w := by
  obtain ⟨p, hp, hpq⟩ := exists_read h
  exact ⟨p, hp, hpq.matches_iff⟩

/-- **A text is read if and only if the grammar derives it**, and the pattern that is read matches the words of every
tree that it has by the grammar. -/
theorem read_iff_derives (text : List Char) :
    ((∃ p, read text = .ok p) ↔ ∃ q, Derives .pattern text q) ∧
      ∀ p q, read text = .ok p → Derives .pattern text q → ∀ w, p.Matches w ↔ q.Matches w := by
  refine ⟨⟨fun ⟨p, hp⟩ => derivable_of_read hp, fun ⟨q, hq⟩ => ?_⟩, fun p q hp hq => ?_⟩
  · obtain ⟨p, hp, -⟩ := read_of_derives hq
    exact ⟨p, hp⟩
  · obtain ⟨p', hp', hmatches⟩ := read_of_derives hq
    cases hp.symm.trans hp'
    exact hmatches

end Pattern
end PatternAutomata
