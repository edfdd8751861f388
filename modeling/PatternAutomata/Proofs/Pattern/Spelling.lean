import PatternAutomata.Fault
import PatternAutomata.Proofs.Pattern.Spellable
import PatternAutomata.Proofs.Pattern.Stack
import PatternAutomata.Proofs.Pattern.Writing
/-!
# Spelling — what is read is a pattern by the grammar

At every moment the stack and the mode spell the text that has been read: each item a text derived from `item`, a
growing word its own characters, an open group its parenthesis, and an alternation its branches with a bar behind each.
One character read keeps this (`Spelled.next`), so when the text ends it spells a pattern (`derivable_of_read`).
-/
namespace PatternAutomata
namespace Pattern

/-- The stack spells the text, from its first entry to the latest. -/
inductive Spells : List Entry → List Char → Prop
  | nil : Spells [] []
  | item {stack : List Entry} {s t : List Char} {p : Pattern} (hs : Spells stack s) (ht : Derivable .item t) :
      Spells (.item p :: stack) (s ++ t)
  | run {stack : List Entry} {s : List Char} {last : Char} {earlier : List Char} (hs : Spells stack s)
      (h : ∀ c ∈ last :: earlier, c ∉ signs) : Spells (.run last earlier :: stack) (s ++ (last :: earlier).reverse)
  | group {stack : List Entry} {s : List Char} {offset : Nat} (hs : Spells stack s) :
      Spells (.group offset :: stack) (s ++ ['('])
  | branches {stack : List Entry} {s t : List Char} {ps : List Pattern} (hstack : Grounded stack) (hs : Spells stack s)
      (ht : Derivable .branches t) : Spells (.branches ps :: stack) (s ++ (t ++ ['|']))

variable {stack stack' rest : List Entry} {s t text : List Char} {offset : Nat} {c : Char} {p : Pattern}

/-! ## Texts put together -/

theorem derivable_of_item (h : Derivable .item t) : Derivable .branch t := h.imp fun _ => .item

theorem derivable_append (hs : Derivable .branch s) (ht : Derivable .branch t) : Derivable .branch (s ++ t) := by
  obtain ⟨p, hp⟩ := hs
  obtain ⟨q, hq⟩ := ht
  exact (hp.writes.seq hq.writes).derivable

theorem derivable_char (h : c ∉ signs) : Derivable .item [c] := ⟨_, .atom (.char h)⟩

theorem derivable_run {last : Char} {earlier : List Char} (h : ∀ c ∈ last :: earlier, c ∉ signs) :
    Derivable .branch (last :: earlier).reverse :=
  (writes_word (by simp) fun c hc => h c (List.mem_reverse.1 hc)).derivable

/-! ## Taking entries off -/

-- The items are met from the top down, so the branch that they are joined to is collected on the right.
theorem Spells.branch_append (h : Spells stack s) (ht : Derivable .branch t) :
    ∃ u v, s ++ t = u ++ v ∧ Spells (floor stack) u ∧ Derivable .branch v := by
  induction h generalizing t with
  | nil => exact ⟨[], t, rfl, .nil, ht⟩
  | group hs => exact ⟨_, t, rfl, .group hs, ht⟩
  | branches hstack hs hb => exact ⟨_, t, rfl, .branches hstack hs hb, ht⟩
  | item hs hu ih =>
    rw [List.append_assoc]
    exact ih (derivable_append (derivable_of_item hu) ht)
  | run hs hrun ih =>
    rw [List.append_assoc]
    exact ih (derivable_append (derivable_run hrun) ht)

/-- The items on top spell a branch. -/
theorem Spells.branch (h : Spells stack text) (hfloor : ¬IsFloor stack) :
    ∃ s t, text = s ++ t ∧ Spells (floor stack) s ∧ Derivable .branch t := by
  cases h with
  | nil | group | branches => exact absurd trivial hfloor
  | item hs ht => exact hs.branch_append (derivable_of_item ht)
  | run hs hrun => exact hs.branch_append (derivable_run hrun)

/-- The branches on top spell what may stand in a group. -/
theorem Spells.branches_of_items (h : Spells stack text) (hfloor : ¬IsFloor stack) :
    ∃ s t, text = s ++ t ∧ Grounded (ground stack) ∧ Spells (ground stack) s ∧ Derivable .branches t := by
  obtain ⟨s, t, rfl, hs, q, hq⟩ := h.branch hfloor
  rcases isFloor_cases (isFloor_floor stack) with hg | ⟨ps, rest, hbranches⟩
  · rw [ground_of_grounded hg]
    exact ⟨s, t, rfl, hg, hs, q, .branch hq⟩
  · rw [ground_of_branches hbranches]
    rw [hbranches] at hs
    cases hs with
    | @branches _ s u _ hg hs hu =>
      obtain ⟨p, hp⟩ := hu
      exact ⟨s, u ++ '|' :: t, by simp, hg, hs, _, hp.alt hq⟩

theorem Spells.takeContent {content : Option Pattern} (h : Spells stack text)
    (htake : takeContent offset stack = .ok (content, rest)) :
    ∃ s t, text = s ++ t ∧ Grounded rest ∧ Spells rest s ∧ Derivable .pattern t := by
  by_cases hfloor : IsFloor stack
  · rcases isFloor_cases hfloor with hg | ⟨ps, below, rfl⟩
    · rw [takeContent_of_grounded hg] at htake
      cases htake
      exact ⟨text, [], text.append_nil.symm, hg, h, _, .empty⟩
    · rw [takeContent_open] at htake
      cases htake
  · obtain ⟨p, hp, -⟩ := takeContent_of_items hfloor
    rw [hp] at htake
    cases htake
    obtain ⟨s, t, rfl, hg, hs, q, hq⟩ := h.branches_of_items hfloor
    exact ⟨s, t, rfl, hg, hs, q, .pattern hq⟩

theorem Spells.endBranch (h : Spells stack text) (hend : endBranch offset stack = .ok stack') :
    Spells stack' (text ++ ['|']) := by
  by_cases hfloor : IsFloor stack
  · obtain ⟨e, he⟩ := endBranch_of_isFloor hfloor
    rw [he] at hend
    cases hend
  · obtain ⟨ps, hps, -⟩ := endBranch_of_items hfloor
    rw [hps] at hend
    cases hend
    obtain ⟨s, t, rfl, hg, hs, ht⟩ := h.branches_of_items hfloor
    rw [List.append_assoc]
    exact hs.branches hg ht

theorem Spells.tops (h : Spells stack' text) (htops : Tops stack p stack') :
    ∃ s t, text = s ++ t ∧ Spells stack s ∧ Derivable .item t := by
  cases htops with
  | item =>
    cases h with
    | item hs ht => exact ⟨_, _, rfl, hs, ht⟩
  | letter c =>
    cases h with
    | run hs hc => exact ⟨_, _, rfl, hs, derivable_char (hc c List.mem_cons_self)⟩
  | last c d earlier =>
    cases h with
    | @run _ s _ _ hs hc =>
      refine ⟨s ++ (d :: earlier).reverse, [c], ?_, hs.run fun e he => hc e (List.mem_cons_of_mem _ he),
        derivable_char (hc c List.mem_cons_self)⟩
      rw [List.reverse_cons, List.append_assoc]

theorem Spells.pushChar (h : Spells stack text) (hc : c ∉ signs) : Spells (pushChar c stack) (text ++ [c]) := by
  unfold Pattern.pushChar
  split
  · rename_i last earlier rest
    cases h with
    | @run _ s _ _ hs hrun =>
      rw [List.append_assoc, ← List.reverse_cons]
      exact hs.run (List.forall_mem_cons.2 ⟨hc, hrun⟩)
  · exact h.run (List.forall_mem_singleton.2 hc)

theorem Spells.endGroup (h : Spells stack text) (hend : endGroup offset stack = .ok stack') :
    Spells stack' (text ++ [')']) := by
  obtain ⟨⟨content, rest⟩, htake, hend⟩ := bind_eq_ok.1 hend
  obtain ⟨s, t, rfl, -, hs, q, hq⟩ := h.takeContent htake
  split at hend
  · rename_i heq
    cases heq
    cases hend
    cases hs with
    | @group _ s _ hs =>
      have : s ++ ['('] ++ t ++ [')'] = s ++ ('(' :: t ++ [')']) := by simp
      rw [this]
      exact hs.item ⟨q, .atom (.group hq)⟩
  · cases hend

theorem Spells.takeOperand {sign : Char} (h : Spells stack' text)
    (htake : takeOperand sign offset stack' = .ok (p, stack)) :
    ∃ s t, text = s ++ t ∧ Spells stack s ∧ Derivable .item t :=
  h.tops (takeOperand_eq_ok.1 htake)

/-- A sign behind the item on top makes a longer item. -/
theorem Spells.repeated {sign : Char} {q : Pattern} (h : Spells stack' text)
    (htake : Pattern.takeOperand sign offset stack' = .ok (p, stack))
    (hsign : ∀ {t : List Char} {q : Pattern}, Derives .item t q → Derivable .item (t ++ [c])) :
    Spells (.item q :: stack) (text ++ [c]) := by
  obtain ⟨s, t, rfl, hs, _, ht⟩ := h.takeOperand htake
  rw [List.append_assoc]
  exact hs.item (hsign ht)

/-! ## Counts and classes -/

theorem readCount?_eq_some {digits : List Char} {n : UInt32} (hdigits : ∀ d ∈ digits, d.isDigit = true) :
    readCount? digits = some n ↔ Numeral digits n.toNat := by
  constructor
  · intro h
    unfold readCount? at h
    split at h
    · rename_i hvalue
      cases h
      exact ⟨hvalue.1, hdigits, (UInt32.toNat_ofNat_of_lt hvalue.2).symm⟩
    · cases h
  · intro h
    have hvalue : digitsValue digits = n.toNat := h.value_eq
    rw [readCount?, if_pos ⟨h.ne_nil, hvalue ▸ n.toNat_lt⟩, hvalue, UInt32.ofNat_toNat]

theorem forall_digits {digits : List Char} (hdigits : ∀ d ∈ digits, d.isDigit = true) (hc : c.isDigit = true) :
    ∀ d ∈ digits ++ [c], d.isDigit = true :=
  List.forall_mem_append.2 ⟨hdigits, List.forall_mem_singleton.2 hc⟩

theorem endCount_eq_ok {wanted : Char} {start : Nat} {digits : List Char} {n : UInt32} :
    endCount wanted start digits offset c = .ok n ↔ readCount? digits = some n ∧ c = wanted := by
  unfold endCount
  split
  · simp [*]
  · split <;> simp [*]

theorem counted_eq_ok {opened : Nat} {least greatest : UInt32} {q : Pattern} :
    counted p opened least greatest = .ok q ↔
      ∃ times : Bounds, times.least = least.toNat ∧ times.greatest = greatest.toNat ∧ q = count p times := by
  unfold counted Bounds.ofCounts
  constructor
  · intro h
    split at h
    · rename_i times htimes
      cases h
      split at htimes
      · cases htimes
        exact ⟨_, rfl, rfl, rfl⟩
      · cases htimes
    · cases h
  · rintro ⟨⟨l, g, hle, hlt⟩, rfl, rfl, rfl⟩
    rw [dif_pos hle]

theorem ne_nil_of_ofClass {opened : Nat} {intervals : List Interval} (h : ofClass opened intervals = .ok p) :
    intervals ≠ [] := by
  rintro rfl
  have : Interval.compact [] = [] := rfl
  rw [ofClass, this, List.map_nil, balanced_nil] at h
  cases h

/-! ## Modes -/

/-- The stack and the mode spell the text. -/
inductive Spelled : List Entry → Mode → List Char → Prop
  | items {stack : List Entry} {s : List Char} (hs : Spells stack s) : Spelled stack .items s
  | bar {stack : List Entry} {s : List Char} {offset : Nat} (hs : Spells stack s) :
      Spelled stack (.bar offset) (s ++ ['|'])
  | least {stack : List Entry} {s t digits : List Char} {p : Pattern} {opened start : Nat} (hs : Spells stack s)
      (ht : Derivable .item t) (hdigits : ∀ d ∈ digits, d.isDigit = true) :
      Spelled stack (.least p opened start digits) (s ++ (t ++ '{' :: digits))
  | greatest {stack : List Entry} {s t first digits : List Char} {p : Pattern} {opened start : Nat} {least : UInt32}
      (hs : Spells stack s) (ht : Derivable .item t) (hleast : Numeral first least.toNat)
      (hdigits : ∀ d ∈ digits, d.isDigit = true) :
      Spelled stack (.greatest p opened least start digits) (s ++ (t ++ '{' :: first ++ ',' :: digits))
  | members {stack : List Entry} {s t : List Char} {opened : Nat} {intervals : List Interval} (hs : Spells stack s)
      (ht : Members t intervals) : Spelled stack (.members opened intervals none) (s ++ '[' :: t)
  | member {stack : List Entry} {s t : List Char} {opened : Nat} {intervals : List Interval} {last : Char}
      (hs : Spells stack s) (ht : Members t intervals) (hlast : last ∉ '-' :: brackets) :
      Spelled stack (.members opened intervals (some last)) (s ++ '[' :: (t ++ [last]))
  | rangeEnd {stack : List Entry} {s t : List Char} {opened : Nat} {intervals : List Interval} {lo : Char}
      (hs : Spells stack s) (ht : Members t intervals) (hlo : lo ∉ '-' :: brackets) :
      Spelled stack (.rangeEnd opened intervals lo) (s ++ '[' :: (t ++ [lo, '-']))

/-- What has been read of a class, the character that may start a range counted in. -/
theorem Spelled.members_withLast {opened : Nat} {intervals : List Interval} {last : Option Char}
    (h : Spelled stack (.members opened intervals last) text) :
    ∃ s t, text = s ++ '[' :: t ∧ Spells stack s ∧ Members t (withLast last intervals) := by
  cases h with
  | members hs ht => exact ⟨_, _, rfl, hs, ht⟩
  | member hs ht hlast => exact ⟨_, _, rfl, hs, ht.char hlast⟩

theorem Spells.readItem {mode : Mode} (h : Spells stack text)
    (hread : readItem offset stack c = .ok (stack', mode)) : Spelled stack' mode (text ++ [c]) := by
  unfold Pattern.readItem at hread
  split at hread
  · cases hread
    exact .items h.group
  · obtain ⟨_, hend, hread⟩ := bind_eq_ok.1 hread
    cases hread
    exact .items (h.endGroup hend)
  · cases hread
    exact .bar h
  · obtain ⟨⟨p, rest⟩, htake, hread⟩ := bind_eq_ok.1 hread
    cases hread
    exact .items (h.repeated htake fun hq => ⟨_, hq.star⟩)
  · obtain ⟨⟨p, rest⟩, htake, hread⟩ := bind_eq_ok.1 hread
    cases hread
    exact .items (h.repeated htake fun hq => ⟨_, hq.plus⟩)
  · obtain ⟨⟨p, rest⟩, htake, hread⟩ := bind_eq_ok.1 hread
    cases hread
    exact .items (h.repeated htake fun hq => ⟨_, hq.optional⟩)
  · obtain ⟨⟨p, rest⟩, htake, hread⟩ := bind_eq_ok.1 hread
    cases hread
    obtain ⟨s, t, rfl, hs, ht⟩ := h.takeOperand htake
    rw [List.append_assoc]
    exact .least hs ht (List.forall_mem_nil _)
  · cases hread
    exact .members h .nil
  · cases hread
  · cases hread
  · cases hread
    -- the cases above are the signs
    exact .items (h.pushChar (by simp_all [signs]))

section

variable {opened start : Nat} {digits : List Char} {least : UInt32} {intervals : List Interval} {mode : Mode}

theorem Spelled.next_least (h : Spelled stack (.least p opened start digits) text)
    (hnext : Reader.next offset stack c (.least p opened start digits) = .ok (stack', mode)) :
    Spelled stack' mode (text ++ [c]) := by
  cases h with
  | least hs ht hdigits =>
    dsimp only [Reader.next] at hnext
    split at hnext
    · rename_i hc
      cases hnext
      rw [List.append_assoc, List.append_assoc]
      exact .least hs ht (forall_digits hdigits hc)
    · obtain ⟨n, hn, hnext⟩ := bind_eq_ok.1 hnext
      cases hnext
      obtain ⟨hcount, rfl⟩ := endCount_eq_ok.1 hn
      rw [List.append_assoc]
      exact .greatest hs ht ((readCount?_eq_some hdigits).1 hcount) (List.forall_mem_nil _)

theorem Spelled.next_greatest (h : Spelled stack (.greatest p opened least start digits) text)
    (hnext : Reader.next offset stack c (.greatest p opened least start digits) = .ok (stack', mode)) :
    Spelled stack' mode (text ++ [c]) := by
  cases h with
  | greatest hs ht hleast hdigits =>
    dsimp only [Reader.next] at hnext
    split at hnext
    · rename_i hc
      cases hnext
      rw [List.append_assoc, List.append_assoc]
      exact .greatest hs ht hleast (forall_digits hdigits hc)
    · obtain ⟨n, hn, hnext⟩ := bind_eq_ok.1 hnext
      obtain ⟨q, hq, hnext⟩ := bind_eq_ok.1 hnext
      cases hnext
      obtain ⟨hcount, rfl⟩ := endCount_eq_ok.1 hn
      obtain ⟨times, hl, hg, rfl⟩ := counted_eq_ok.1 hq
      obtain ⟨_, ht⟩ := ht
      have hgreatest := (readCount?_eq_some hdigits).1 hcount
      rw [List.append_assoc]
      exact .items (hs.item ⟨_, ht.count (hl ▸ hleast) (hg ▸ hgreatest)⟩)

theorem Spelled.next_members {last : Option Char} (h : Spelled stack (.members opened intervals last) text)
    (hnext : Reader.next offset stack c (.members opened intervals last) = .ok (stack', mode)) :
    Spelled stack' mode (text ++ [c]) := by
  dsimp only [Reader.next] at hnext
  split at hnext
  · obtain ⟨q, hq, hnext⟩ := bind_eq_ok.1 hnext
    cases hnext
    obtain ⟨s, t, rfl, hs, ht⟩ := h.members_withLast
    have hne := mt ht.eq_nil_iff.1 (ne_nil_of_ofClass hq)
    rw [List.append_assoc]
    exact .items (hs.item ⟨_, .atom (.oneOf ht hne)⟩)
  · split at hnext
    · cases hnext
      cases h with
      | member hs ht hlast =>
        rw [List.append_assoc, List.cons_append, List.append_assoc]
        exact .rangeEnd hs ht hlast
    · cases hnext
  · cases hnext
  · cases hnext
  · cases hnext
  · cases hnext
    obtain ⟨s, t, rfl, hs, ht⟩ := h.members_withLast
    rw [List.append_assoc]
    exact .member hs ht (by simp_all [brackets])

theorem Spelled.next_rangeEnd {lo : Char} (h : Spelled stack (.rangeEnd opened intervals lo) text)
    (hnext : Reader.next offset stack c (.rangeEnd opened intervals lo) = .ok (stack', mode)) :
    Spelled stack' mode (text ++ [c]) := by
  obtain ⟨i, hi, hnext⟩ := bind_eq_ok.1 hnext
  cases hnext
  obtain ⟨hc, hle, rfl⟩ := readRangeEnd_eq_ok.1 hi
  cases h with
  | rangeEnd hs ht hlo =>
    rw [List.append_assoc, List.cons_append, List.append_assoc]
    exact .members hs (ht.range hlo hc hle)

end

/-- **One character read keeps the text spelled.** -/
theorem Spelled.next {mode mode' : Mode} (h : Spelled stack mode text)
    (hnext : Reader.next offset stack c mode = .ok (stack', mode')) : Spelled stack' mode' (text ++ [c]) := by
  cases mode with
  | items =>
    cases h with
    | items hs => exact hs.readItem hnext
  | bar =>
    cases h with
    | bar hs =>
      obtain ⟨stack₁, hend, hread⟩ := bind_eq_ok.1 hnext
      exact (hs.endBranch hend).readItem hread
  | least => exact h.next_least hnext
  | greatest => exact h.next_greatest hnext
  | members => exact h.next_members hnext
  | rangeEnd => exact h.next_rangeEnd hnext

theorem spelled_of_steps {r r' : Reader} (h : Spelled r.stack r.mode text) (hsteps : r.steps t = .ok r') :
    Spelled r'.stack r'.mode (text ++ t) := by
  induction t generalizing r text with
  | nil =>
    cases hsteps
    rwa [List.append_nil]
  | cons c t ih =>
    obtain ⟨r₁, hstep, hsteps⟩ := bind_eq_ok.1 hsteps
    obtain ⟨⟨stack, mode⟩, hnext, hstep⟩ := bind_eq_ok.1 hstep
    cases hstep
    have := ih (h.next hnext) hsteps
    rwa [List.append_assoc] at this

theorem derivable_of_finish {r : Reader} (h : Spelled r.stack r.mode text) (hfinish : r.finish = .ok p) :
    Derivable .pattern text := by
  obtain ⟨stack, mode, offset⟩ := r
  cases h with
  | bar | least | greatest | members | member | rangeEnd => cases hfinish
  | items hs =>
    obtain ⟨⟨content, rest⟩, htake, hfinish⟩ := bind_eq_ok.1 hfinish
    obtain ⟨s, t, rfl, hg, hrest, ht⟩ := hs.takeContent htake
    cases hrest with
    | nil => exact ht
    | group => cases hfinish
    | item | run | branches => cases hg

/-- **What is read can be derived.** -/
theorem derivable_of_read (h : read text = .ok p) : Derivable .pattern text := by
  obtain ⟨r, hsteps, hfinish⟩ := bind_eq_ok.1 h
  exact derivable_of_finish (spelled_of_steps (.items .nil) hsteps) hfinish

end Pattern
end PatternAutomata
