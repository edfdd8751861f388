import PatternAutomata.Proofs.Grouping
import PatternAutomata.Proofs.Pattern.Accepted
import PatternAutomata.Proofs.Pattern.Spellable
/-!
# Reader — what patterns are read

Whatever the text, the reader builds patterns in few ways only: words character by character, classes of one interval,
and the operators.  So what these keep holds of every pattern that is read (`read_induction`); in particular each can be
written again (`spellable_of_read`), and none has an empty character set (`filled_of_read`).
-/
namespace PatternAutomata
namespace Pattern

/-- What the reader does to patterns keeps `P`. -/
structure Kept (P : Pattern → Prop) : Prop where
  empty : P (word [])
  char : ∀ c, c ∉ signs → P (word [c])
  glue : ∀ v w, P (word v) → P (word w) → P (word (v ++ w))
  seq : ∀ p q, P p → P q → P (seq p q)
  alt : ∀ p q, P p → P q → P (alt p q)
  star : ∀ p, P p → P (star p)
  count : ∀ p times, P p → P (count p times)
  oneOf : ∀ i, i.Spellable → P (oneOf [i])

def Entry.All (P : Pattern → Prop) : Entry → Prop
  | item p => P p
  | run last earlier => ∀ c ∈ last :: earlier, c ∉ signs
  | group _ => True
  | branches ps => ∀ p ∈ ps, P p

/-- What holds of the pattern whose count is being read, or of the members of the class. -/
def Mode.All (P : Pattern → Prop) : Mode → Prop
  | least p _ _ _ => P p
  | greatest p _ _ _ _ => P p
  | members _ intervals last => ∀ i ∈ withLast last intervals, i.Spellable
  | rangeEnd _ intervals lo => ∀ i ∈ withLast (some lo) intervals, i.Spellable
  | _ => True

variable {P : Pattern → Prop} {ps : List Pattern} {stack rest : List Entry} {offset : Nat} {c : Char}

theorem Kept.word (hP : Kept P) : ∀ {w : Word}, (∀ c ∈ w, c ∉ signs) → P (word w)
  | [], _ => hP.empty
  | c :: w, h =>
    hP.glue [c] w (hP.char c (h c List.mem_cons_self)) (hP.word fun d hd => h d (List.mem_cons_of_mem _ hd))

theorem balanced_induction {join : Pattern → Pattern → Pattern} (hjoin : ∀ p q, P p → P q → P (join p q))
    (hps : ∀ p ∈ ps, P p) {p : Pattern} (h : balanced join ps = some p) : P p := by
  obtain ⟨g, rfl, rfl⟩ := Grouping.exists_of_balanced h
  exact Grouping.join_induction hjoin hps

theorem all_cons {x : Entry} (hx : x.All P) (hrest : ∀ e ∈ rest, e.All P) : ∀ e ∈ x :: rest, e.All P := by
  intro e he
  rcases List.mem_cons.1 he with rfl | he
  · exact hx
  · exact hrest e he

theorem glue_all (hP : Kept P) {p : Pattern} (hp : P p) (hps : ∀ q ∈ ps, P q) : ∀ q ∈ glue p ps, P q := by
  unfold glue
  split
  · rename_i v w ps
    intro q hq
    rcases List.mem_cons.1 hq with rfl | hq
    · exact hP.glue v w hp (hps _ List.mem_cons_self)
    · exact hps q (List.mem_cons_of_mem _ hq)
  · intro q hq
    rcases List.mem_cons.1 hq with rfl | hq
    · exact hp
    · exact hps q hq

theorem takeItems_all (hP : Kept P) (hps : ∀ p ∈ ps, P p) (hstack : ∀ e ∈ stack, e.All P) :
    (∀ p ∈ (takeItems ps stack).1, P p) ∧ ∀ e ∈ (takeItems ps stack).2, e.All P := by
  fun_induction takeItems ps stack with
  | case1 ps p stack ih =>
    have hp : P p := hstack _ List.mem_cons_self
    exact ih (glue_all hP hp hps) fun e he => hstack e (List.mem_cons_of_mem _ he)
  | case2 ps last earlier stack ih =>
    have hrun : ∀ c ∈ last :: earlier, c ∉ signs := hstack _ List.mem_cons_self
    have hword := hP.word fun c hc => hrun c (List.mem_reverse.1 hc)
    exact ih (glue_all hP hword hps) fun e he => hstack e (List.mem_cons_of_mem _ he)
  | case3 => exact ⟨hps, hstack⟩

theorem takeBranch_all (hP : Kept P) (hstack : ∀ e ∈ stack, e.All P) :
    (∀ p, (takeBranch stack).1 = some p → P p) ∧ ∀ e ∈ (takeBranch stack).2, e.All P := by
  have hnil : ∀ p ∈ ([] : List Pattern), P p := fun _ h => nomatch h
  obtain ⟨hps, hrest⟩ := takeItems_all hP hnil hstack
  exact ⟨fun p hp => balanced_induction hP.seq hps hp, hrest⟩

theorem takeContent_all (hP : Kept P) (hstack : ∀ e ∈ stack, e.All P) {content : Option Pattern}
    (h : takeContent offset stack = .ok (content, rest)) : (∀ p, content = some p → P p) ∧ ∀ e ∈ rest, e.All P := by
  obtain ⟨hp, hrest⟩ := takeBranch_all hP hstack
  unfold takeContent at h
  split at h
  · rename_i last ps rest heq
    rw [heq] at hp hrest
    cases h
    refine ⟨fun p hbal => balanced_induction hP.alt (fun q hq => ?_) hbal, fun e he => ?_⟩
    · rcases List.mem_cons.1 (List.mem_reverse.1 hq) with rfl | hq
      · exact hp q rfl
      · exact hrest _ List.mem_cons_self q hq
    · exact hrest e (List.mem_cons_of_mem _ he)
  · cases h
  · rename_i heq
    rw [heq] at hp hrest
    cases h
    exact ⟨hp, hrest⟩

theorem endBranch_all (hP : Kept P) (hstack : ∀ e ∈ stack, e.All P) (h : endBranch offset stack = .ok rest) :
    ∀ e ∈ rest, e.All P := by
  obtain ⟨hp, hrest⟩ := takeBranch_all hP hstack
  unfold endBranch at h
  split at h
  · rename_i p ps rest heq
    rw [heq] at hp hrest
    cases h
    refine all_cons (fun q hq => ?_) fun e he => hrest e (List.mem_cons_of_mem _ he)
    rcases List.mem_cons.1 hq with rfl | hq
    · exact hp q rfl
    · exact hrest _ List.mem_cons_self q hq
  · rename_i p rest _ heq
    rw [heq] at hp hrest
    cases h
    exact all_cons (fun q hq => List.mem_singleton.1 hq ▸ hp p rfl) hrest
  · cases h
  · cases h

theorem endGroup_all (hP : Kept P) (hstack : ∀ e ∈ stack, e.All P) (h : endGroup offset stack = .ok rest) :
    ∀ e ∈ rest, e.All P := by
  obtain ⟨⟨content, left⟩, hcontent, h⟩ := bind_eq_ok.1 h
  obtain ⟨hp, hrest⟩ := takeContent_all hP hstack hcontent
  split at h
  · rename_i heq
    cases heq
    cases h
    refine all_cons ?_ fun e he => hrest e (List.mem_cons_of_mem _ he)
    cases content with
    | none => exact hP.empty
    | some p => exact hp p rfl
  · cases h

theorem takeOperand_all (hP : Kept P) (hstack : ∀ e ∈ stack, e.All P) {sign : Char} {p : Pattern}
    (h : takeOperand sign offset stack = .ok (p, rest)) : P p ∧ ∀ e ∈ rest, e.All P := by
  unfold takeOperand at h
  split at h <;> cases h
  · exact ⟨hstack _ List.mem_cons_self, fun e he => hstack e (List.mem_cons_of_mem _ he)⟩
  · have hrun : ∀ c ∈ [_], c ∉ signs := hstack _ List.mem_cons_self
    exact ⟨hP.char _ (hrun _ List.mem_cons_self), fun e he => hstack e (List.mem_cons_of_mem _ he)⟩
  · have hrun : ∀ c ∈ _ :: _ :: _, c ∉ signs := hstack _ List.mem_cons_self
    obtain ⟨hlast, hrun⟩ := List.forall_mem_cons.1 hrun
    exact ⟨hP.char _ hlast, all_cons hrun fun e he => hstack e (List.mem_cons_of_mem _ he)⟩

theorem pushChar_all (hstack : ∀ e ∈ stack, e.All P) (hc : c ∉ signs) : ∀ e ∈ pushChar c stack, e.All P := by
  unfold pushChar
  split
  · have hrun : ∀ c ∈ _ :: _, c ∉ signs := hstack _ List.mem_cons_self
    exact all_cons (List.forall_mem_cons.2 ⟨hc, hrun⟩) fun e he => hstack e (List.mem_cons_of_mem _ he)
  · exact all_cons (List.forall_mem_singleton.2 hc) hstack

/-- An operand taken off the stack and put back in another form. -/
theorem takeOperand_bind_all (hP : Kept P) (hstack : ∀ e ∈ stack, e.All P) {sign : Char}
    {f : Pattern × List Entry → Except SyntaxError (List Entry × Mode)} {mode : Mode}
    (h : (takeOperand sign offset stack).bind f = .ok (rest, mode))
    (hf : ∀ p left, P p → (∀ e ∈ left, e.All P) → f (p, left) = .ok (rest, mode) →
      (∀ e ∈ rest, e.All P) ∧ mode.All P) :
    (∀ e ∈ rest, e.All P) ∧ mode.All P := by
  obtain ⟨⟨p, left⟩, htake, h⟩ := bind_eq_ok.1 h
  obtain ⟨hp, hleft⟩ := takeOperand_all hP hstack htake
  exact hf p left hp hleft h

theorem readItem_all (hP : Kept P) (hstack : ∀ e ∈ stack, e.All P) {mode : Mode}
    (h : readItem offset stack c = .ok (rest, mode)) : (∀ e ∈ rest, e.All P) ∧ mode.All P := by
  unfold readItem at h
  split at h
  · cases h
    exact ⟨all_cons trivial hstack, trivial⟩
  · obtain ⟨s, hend, h⟩ := bind_eq_ok.1 h
    cases h
    exact ⟨endGroup_all hP hstack hend, trivial⟩
  · cases h
    exact ⟨hstack, trivial⟩
  · refine takeOperand_bind_all hP hstack h fun p left hp hleft hr => ?_
    cases hr
    exact ⟨all_cons (hP.star p hp) hleft, trivial⟩
  · refine takeOperand_bind_all hP hstack h fun p left hp hleft hr => ?_
    cases hr
    exact ⟨all_cons (hP.seq p _ hp (hP.star p hp)) hleft, trivial⟩
  · refine takeOperand_bind_all hP hstack h fun p left hp hleft hr => ?_
    cases hr
    exact ⟨all_cons (hP.count p _ hp) hleft, trivial⟩
  · refine takeOperand_bind_all hP hstack h fun p left hp hleft hr => ?_
    cases hr
    exact ⟨hleft, hp⟩
  · cases h
    exact ⟨hstack, List.forall_mem_nil _⟩
  · cases h
  · cases h
  · cases h
    -- the cases above are the signs
    exact ⟨pushChar_all hstack (by simp_all [signs]), trivial⟩

theorem ofClass_all (hP : Kept P) {opened : Nat} {intervals : List Interval} {p : Pattern}
    (hmembers : ∀ i ∈ intervals, i.Spellable) (h : ofClass opened intervals = .ok p) : P p := by
  unfold ofClass at h
  split at h
  · rename_i q hq
    cases h
    refine balanced_induction hP.alt (fun q hq => ?_) hq
    obtain ⟨i, hi, rfl⟩ := List.mem_map.1 hq
    exact hP.oneOf i (Interval.spellable_compact hmembers i hi)
  · cases h

theorem counted_all (hP : Kept P) {opened : Nat} {least greatest : UInt32} {p q : Pattern} (hp : P p)
    (h : counted p opened least greatest = .ok q) : P q := by
  unfold counted at h
  split at h
  · cases h
    exact hP.count p _ hp
  · cases h

namespace Reader

theorem next_all (hP : Kept P) (hstack : ∀ e ∈ stack, e.All P) {mode mode' : Mode} (hmode : mode.All P)
    (h : next offset stack c mode = .ok (rest, mode')) : (∀ e ∈ rest, e.All P) ∧ mode'.All P := by
  cases mode with
  | items => exact readItem_all hP hstack h
  | bar barOffset =>
    obtain ⟨s, hend, h⟩ := bind_eq_ok.1 h
    exact readItem_all hP (endBranch_all hP hstack hend) h
  | least p opened start digits =>
    dsimp only [next] at h
    split at h
    · cases h
      exact ⟨hstack, hmode⟩
    · obtain ⟨n, -, h⟩ := bind_eq_ok.1 h
      cases h
      exact ⟨hstack, hmode⟩
  | greatest p opened least start digits =>
    dsimp only [next] at h
    split at h
    · cases h
      exact ⟨hstack, hmode⟩
    · obtain ⟨n, -, h⟩ := bind_eq_ok.1 h
      obtain ⟨q, hq, h⟩ := bind_eq_ok.1 h
      cases h
      exact ⟨all_cons (counted_all hP hmode hq) hstack, trivial⟩
  | members opened intervals last =>
    dsimp only [next] at h
    split at h
    · obtain ⟨p, hclass, h⟩ := bind_eq_ok.1 h
      cases h
      exact ⟨all_cons (ofClass_all hP hmode hclass) hstack, trivial⟩
    · split at h <;> cases h
      exact ⟨hstack, hmode⟩
    · cases h
    · cases h
    · cases h
    · cases h
      have hc : (Interval.single c).Spellable := Interval.spellable_single.2 (by simp_all [brackets])
      exact ⟨hstack, List.forall_mem_cons.2 ⟨hc, hmode⟩⟩
  | rangeEnd opened intervals lo =>
    obtain ⟨i, hi, h⟩ := bind_eq_ok.1 h
    cases h
    obtain ⟨hc, hle, rfl⟩ := readRangeEnd_eq_ok.1 hi
    obtain ⟨hlo, hmembers⟩ := List.forall_mem_cons.1 hmode
    exact ⟨hstack, List.forall_mem_cons.2 ⟨⟨hlo.lo_not_mem, hc⟩, hmembers⟩⟩

def All (P : Pattern → Prop) (r : Reader) : Prop := (∀ e ∈ r.stack, e.All P) ∧ r.mode.All P

theorem step_all (hP : Kept P) {r s : Reader} (hr : r.All P) (h : r.step c = .ok s) : s.All P := by
  obtain ⟨t, hnext, h⟩ := bind_eq_ok.1 h
  cases h
  exact next_all hP hr.1 hr.2 hnext

theorem steps_all (hP : Kept P) {text : List Char} {r s : Reader} (hr : r.All P) (h : r.steps text = .ok s) :
    s.All P := by
  induction text generalizing r with
  | nil => cases h; exact hr
  | cons c text ih =>
    obtain ⟨t, hstep, h⟩ := bind_eq_ok.1 h
    exact ih (step_all hP hr hstep) h

theorem finish_all (hP : Kept P) {r : Reader} (hr : r.All P) {p : Pattern} (h : r.finish = .ok p) : P p := by
  unfold finish at h
  split at h
  · cases h
  · cases h
  · cases h
  · cases h
  · cases h
  · obtain ⟨⟨content, rest⟩, hcontent, h⟩ := bind_eq_ok.1 h
    obtain ⟨hp, -⟩ := takeContent_all hP hr.1 hcontent
    split at h
    · cases h
    · rename_i heq
      cases heq
      cases h
      cases content with
      | none => exact hP.empty
      | some p => exact hp p rfl

end Reader

/-- **What the reader keeps holds of every pattern that is read.** -/
theorem read_induction (hP : Kept P) {text : List Char} {p : Pattern} (h : read text = .ok p) : P p := by
  obtain ⟨r, hsteps, h⟩ := bind_eq_ok.1 h
  have hstart : Reader.start.All P := ⟨fun _ he => (nomatch he), trivial⟩
  exact Reader.finish_all hP (Reader.steps_all hP hstart hsteps) h

theorem kept_spellable : Kept Spellable where
  empty := List.forall_mem_nil _
  char _ hc := List.forall_mem_singleton.2 hc
  glue _ _ hv hw := List.forall_mem_append.2 ⟨hv, hw⟩
  seq _ _ hp hq := ⟨hp, hq⟩
  alt _ _ hp hq := ⟨hp, hq⟩
  star _ hp := hp
  count _ _ hp := hp
  oneOf _ hi := ⟨List.cons_ne_nil _ _, List.forall_mem_singleton.2 hi⟩

/-- **What is read can be written again.** -/
theorem spellable_of_read {text : List Char} {p : Pattern} (h : read text = .ok p) : p.Spellable :=
  read_induction kept_spellable h

theorem Spellable.filled : ∀ {p : Pattern}, p.Spellable → p.Filled
  | word _, _ => trivial
  | seq head tail, ⟨hh, ht⟩ => ⟨filled (p := head) hh, filled (p := tail) ht⟩
  | alt left right, ⟨hl, hr⟩ => ⟨filled (p := left) hl, filled (p := right) hr⟩
  | star p, h => filled (p := p) h
  | count p _, h => filled (p := p) h
  | oneOf _, h => h.1

/-- **No pattern that is read has an empty character set.** -/
theorem filled_of_read {text : List Char} {p : Pattern} (h : read text = .ok p) : p.Filled := (spellable_of_read h).filled

end Pattern
end PatternAutomata
