import PatternAutomata.Proofs.Checked.Forced
import PatternAutomata.Proofs.Compiled
import PatternAutomata.Proofs.Nfa.Entered
/-!
# Checked — compiling, with every precondition checked

The reader compares the bounds of a range and the counts of a repetition before it makes an interval or a repetition of
them; the checked reader makes them by the functions that fail, and a failure there is a fault and not an error in the
text.  Together with the checked stages this is compiling with a check at every place where a precondition could be
broken.  It comes to what compiling comes to: no fault, and an error only where the text is not a pattern.
-/
namespace PatternAutomata
namespace Checked

open Pattern (Entry Mode Reader)

/-! ## Reading -/

def counted (p : Pattern) (opened : Nat) (least greatest : UInt32) : Except CompileError Pattern :=
  if greatest.toNat < least.toNat then .error (.malformed ⟨.reversedCounts least.toNat greatest.toNat, opened⟩)
  else do return .count p (← (Bounds.ofCounts least greatest).mapError .fault)

def readRangeEnd (offset : Nat) (lo c : Char) : Except CompileError Interval :=
  if c = ']' ∨ c = '[' ∨ c = '(' ∨ c = ')' then .error (.malformed ⟨.badRangeEnd c, offset⟩)
  else if c < lo then .error (.malformed ⟨.reversedRange lo c, offset⟩)
  else (Interval.ofBounds lo c).mapError .fault

/-- What a character makes of the stack and the mode; only the ends of counts and of ranges have something to check. -/
def next (offset : Nat) (stack : List Entry) (c : Char) : Mode → Except CompileError (List Entry × Mode)
  | .greatest p opened least start digits =>
    if c.isDigit then return (stack, .greatest p opened least start (digits ++ [c]))
    else do
      let greatest ← (Pattern.endCount '}' start digits offset c).mapError .malformed
      return (.item (← counted p opened least greatest) :: stack, .items)
  | .rangeEnd opened intervals lo => do
    return (stack, .members opened ((← readRangeEnd offset lo c) :: intervals) none)
  | mode => (Reader.next offset stack c mode).mapError .malformed

def steps : Reader → List Char → Except CompileError Reader
  | r, [] => .ok r
  | r, c :: cs => do
    let (stack, mode) ← next r.offset r.stack c r.mode
    steps ⟨stack, mode, r.offset + c.utf8Size⟩ cs

def read (text : List Char) : Except CompileError Pattern := do
  (← steps Reader.start text).finish.mapError .malformed

theorem counted_eq (p : Pattern) (opened : Nat) (least greatest : UInt32) :
    counted p opened least greatest = (Pattern.counted p opened least greatest).mapError .malformed := by
  rw [counted, Pattern.counted, Bounds.ofCounts]
  by_cases h : least.toNat ≤ greatest.toNat
  · rw [if_neg (Nat.not_lt.2 h), dif_pos h]
    rfl
  · rw [if_pos (Nat.not_le.1 h), dif_neg h]
    rfl

theorem readRangeEnd_eq (offset : Nat) (lo c : Char) :
    readRangeEnd offset lo c = (Pattern.readRangeEnd offset lo c).mapError .malformed := by
  rw [readRangeEnd, Pattern.readRangeEnd, Interval.ofBounds]
  split
  · rfl
  · by_cases h : lo ≤ c
    · rw [if_neg (Char.not_lt.2 h), dif_pos h, dif_pos h]
      rfl
    · rw [if_pos (Char.not_le.1 h), dif_neg h]
      rfl

theorem next_eq (offset : Nat) (stack : List Entry) (c : Char) (mode : Mode) :
    next offset stack c mode = (Reader.next offset stack c mode).mapError .malformed := by
  cases mode with
  | greatest p opened least start digits =>
    rw [next, Reader.next]
    split
    · rfl
    · cases Pattern.endCount '}' start digits offset c with
      | error e => rfl
      | ok greatest =>
        change (counted p opened least greatest).bind _ = ((Pattern.counted p opened least greatest).bind _).mapError _
        rw [counted_eq]
        cases Pattern.counted p opened least greatest <;> rfl
  | rangeEnd opened intervals lo =>
    rw [next, Reader.next, readRangeEnd_eq]
    cases Pattern.readRangeEnd offset lo c <;> rfl
  | items => rfl
  | bar => rfl
  | least => rfl
  | members => rfl

theorem steps_eq (r : Reader) (text : List Char) : steps r text = (r.steps text).mapError .malformed := by
  induction text generalizing r with
  | nil => rfl
  | cons c text ih =>
    rw [steps, next_eq, Reader.steps, Reader.step]
    cases Reader.next r.offset r.stack c r.mode with
    | error e => rfl
    | ok s => exact ih _

/-- **Reading makes nothing of bounds or counts that are out of order.** -/
theorem read_eq (text : List Char) : read text = (Pattern.read text).mapError .malformed := by
  rw [read, Pattern.read, steps_eq]
  cases Reader.start.steps text <;> rfl

/-! ## Compiling -/

/-- What compiling computes: the stages, and what is read off the last of them. -/
structure Output where
  stages : Compiled
  chain : List Interval
  offset : Option Offset
  offsets : List (Nat × Offset)

/-- What there is to read off a compiled pattern. -/
def Output.of (c : Compiled) : Output := ⟨c, c.dfa.chain, c.dfa.offset, c.dfa.offsets⟩

def build (text : List Char) (p : Pattern) : Except Fault Output := do
  let nfa ← ofPattern p
  let raw ← ofNfa nfa
  let dfa ← minimize raw
  return ⟨⟨text, p, nfa, raw, dfa⟩, ← chain dfa, ← offset dfa, ← offsets dfa⟩

/-- The pattern of the reversed words; the counts of repetitions are compared again. -/
def reverse : Pattern → Except Fault Pattern
  | .word w => .ok (.word w.reverse)
  | .seq head tail => do return .seq (← reverse tail) (← reverse head)
  | .alt left right => do return .alt (← reverse left) (← reverse right)
  | .star p => do return .star (← reverse p)
  | .count p times => do return .count (← reverse p) (← Bounds.ofCounts (.ofNat times.least) (.ofNat times.greatest))
  | .oneOf intervals => .ok (.oneOf intervals)

def compile (text : List Char) : Except CompileError Output := do (build text (← read text)).mapError .fault

def compileReversed (text : List Char) : Except CompileError Output := do
  let output ← compile text
  let p ← (reverse output.stages.pattern).mapError .fault
  (build p.render p).mapError .fault

theorem ofCounts_eq_ok (times : Bounds) : Bounds.ofCounts (.ofNat times.least) (.ofNat times.greatest) = .ok times := by
  have hgreatest := UInt32.toNat_ofNat_of_lt' times.greatest_lt
  have hleast := UInt32.toNat_ofNat_of_lt' (Nat.lt_of_le_of_lt times.least_le_greatest times.greatest_lt)
  have hle : (UInt32.ofNat times.least).toNat ≤ (UInt32.ofNat times.greatest).toNat := by
    rw [hleast, hgreatest]
    exact times.least_le_greatest
  rw [Bounds.ofCounts, dif_pos hle]
  simp only [hleast, hgreatest]

theorem reverse_eq_ok : ∀ p : Pattern, reverse p = .ok p.reverse
  | .word _ => rfl
  | .seq head tail => bind_eq_ok.2 ⟨_, reverse_eq_ok tail, bind_eq_ok.2 ⟨_, reverse_eq_ok head, rfl⟩⟩
  | .alt left right => bind_eq_ok.2 ⟨_, reverse_eq_ok left, bind_eq_ok.2 ⟨_, reverse_eq_ok right, rfl⟩⟩
  | .star p => bind_eq_ok.2 ⟨_, reverse_eq_ok p, rfl⟩
  | .count p times => bind_eq_ok.2 ⟨_, reverse_eq_ok p, bind_eq_ok.2 ⟨_, ofCounts_eq_ok times, rfl⟩⟩
  | .oneOf _ => rfl

/-- **All stages are built without a fault.** -/
theorem build_eq_ok (text : List Char) (p : Pattern) :
    ∃ c, Compiled.ofPattern text p = .ok c ∧ build text p = .ok (.of c) := by
  have hn := Nfa.wellFormed_ofPattern p
  obtain ⟨raw, keys, hraw, hsubsets⟩ := Dfa.exists_ofNfa hn
  have hd := hsubsets.wellFormed
  have hm := hd.minimize
  refine ⟨⟨text, p, Nfa.ofPattern p, raw, raw.minimize⟩, bind_eq_ok.2 ⟨raw, hraw, rfl⟩, ?_⟩
  refine bind_eq_ok.2 ⟨_, ofPattern_eq_ok p, bind_eq_ok.2 ⟨raw, (ofNfa_eq hn).trans hraw, ?_⟩⟩
  exact bind_eq_ok.2 ⟨_, minimize_eq_ok hd, bind_eq_ok.2 ⟨_, chain_eq_ok hm, bind_eq_ok.2 ⟨_, offset_eq_ok hm,
    bind_eq_ok.2 ⟨_, offsets_eq_ok hm, rfl⟩⟩⟩⟩

/-- **Compiling with all checks is compiling**, in one direction and in the other. -/
theorem compile_eq (text : List Char) : compile text = (PatternAutomata.compile text).map .of := by
  rw [compile, read_eq, PatternAutomata.compile]
  cases Pattern.read text with
  | error e => rfl
  | ok p =>
    obtain ⟨c, hc, hbuild⟩ := build_eq_ok text p
    change (build text p).mapError _ = ((Compiled.ofPattern text p).mapError CompileError.fault).map _
    rw [hbuild, hc]
    rfl

theorem compileReversed_eq (text : List Char) :
    compileReversed text = (PatternAutomata.compileReversed text).map .of := by
  rw [compileReversed, compile_eq, PatternAutomata.compileReversed]
  cases PatternAutomata.compile text with
  | error e => rfl
  | ok c =>
    obtain ⟨r, hr, hbuild⟩ := build_eq_ok c.pattern.reverse.render c.pattern.reverse
    change ((reverse c.pattern).mapError CompileError.fault).bind _ = (c.reverse.mapError CompileError.fault).map _
    rw [reverse_eq_ok, Compiled.reverse, hr]
    change (build c.pattern.reverse.render c.pattern.reverse).mapError _ = _
    rw [hbuild]
    rfl

end Checked

/-- What compiling comes to, there and back. -/
theorem compile_cases (text : List Char) :
    (∃ e, Pattern.read text = .error e ∧ compile text = .error (.malformed e) ∧
      compileReversed text = .error (.malformed e)) ∨
    ∃ c r, compile text = .ok c ∧ compileReversed text = .ok r := by
  cases hread : Pattern.read text with
  | error e =>
    have hcompile : compile text = .error (.malformed e) := by rw [compile, hread]
    exact .inl ⟨e, rfl, hcompile, bind_eq_error.2 (.inl hcompile)⟩
  | ok p =>
    obtain ⟨c, hc, -⟩ := exists_compile hread
    obtain ⟨r, hr, -⟩ := Checked.build_eq_ok c.pattern.reverse.render c.pattern.reverse
    have hreverse : c.reverse.mapError CompileError.fault = .ok r := by
      rw [Compiled.reverse, hr]
      rfl
    exact .inr ⟨c, r, hc, bind_eq_ok.2 ⟨c, hc, hreverse⟩⟩

/-- **Compiling never faults.**  The automaton of every pattern is well-formed; the last of its states is the only
accepting one and cannot be left, and if no character set is empty, every state lies on the way from the start to it.
So compiling a text, or compiling it for the reversed words, comes to the same with every precondition checked as with
none checked, and ends in an error only where the text is not a pattern. -/
theorem compile_without_fault :
    (∀ p : Pattern, (Nfa.ofPattern p).WellFormed ∧
      (∀ i, (Nfa.ofPattern p).isAccepting i = true ↔ i + 1 = (Nfa.ofPattern p).size) ∧
      (Nfa.ofPattern p).states[(Nfa.ofPattern p).size - 1]? = some ⟨true, [], []⟩ ∧
      (p.Filled → ∀ i < (Nfa.ofPattern p).size, (∃ u, (Nfa.ofPattern p).Path (Nfa.ofPattern p).start u i) ∧
        ∃ v, (Nfa.ofPattern p).Path i v ((Nfa.ofPattern p).size - 1))) ∧
    ∀ text : List Char, Checked.compile text = (compile text).map .of ∧
      Checked.compileReversed text = (compileReversed text).map .of ∧
      ((∃ e, Pattern.read text = .error e ∧ Checked.compile text = .error (.malformed e) ∧
          Checked.compileReversed text = .error (.malformed e)) ∨
        ∃ c r, Checked.compile text = .ok c ∧ Checked.compileReversed text = .ok r) := by
  refine ⟨fun p => ⟨Nfa.wellFormed_ofPattern p, fun i => ?_, Nfa.states_last p, fun hp i hi =>
    Nfa.exists_path_through hp hi⟩, fun text => ⟨Checked.compile_eq text, Checked.compileReversed_eq text, ?_⟩⟩
  · rw [Nfa.isAccepting_ofPattern, Nfa.size_ofPattern]
    omega
  · rw [Checked.compile_eq, Checked.compileReversed_eq]
    rcases compile_cases text with ⟨e, he, hc, hr⟩ | ⟨c, r, hc, hr⟩
    · exact .inl ⟨e, he, by rw [hc]; rfl, by rw [hr]; rfl⟩
    · exact .inr ⟨.of c, .of r, by rw [hc]; rfl, by rw [hr]; rfl⟩

/-- In the automaton of `(a|[b])*` the state before `[b]` is reached and leads on, and a group left open is an error. -/
theorem compile_without_fault_branches :
    (Pattern.star (.alt (.word ['a']) (.oneOf [.single 'b']))).Filled ∧
      (let n := Nfa.ofPattern (.star (.alt (.word ['a']) (.oneOf [.single 'b'])))
      3 < n.size ∧ (∃ u, n.Path n.start u 3) ∧ ∃ v, n.Path 3 v (n.size - 1)) ∧
      Checked.compile "(a".toList = .error (.malformed ⟨.unclosedGroup, 0⟩) ∧
      Checked.compileReversed "(a".toList = .error (.malformed ⟨.unclosedGroup, 0⟩) := by
  have hfilled : (Pattern.star (.alt (.word ['a']) (.oneOf [.single 'b']))).Filled := ⟨trivial, List.cons_ne_nil _ _⟩
  refine ⟨hfilled, ⟨by decide, (compile_without_fault.1 _).2.2.2 hfilled 3 (by decide)⟩, ?_⟩
  have hread : Pattern.read "(a".toList = .error ⟨.unclosedGroup, 0⟩ := by with_unfolding_all rfl
  obtain ⟨-, -, ⟨e, he, hc, hr⟩ | ⟨c, r, hc, -⟩⟩ := compile_without_fault.2 "(a".toList
  · cases hread.symm.trans he
    exact ⟨hc, hr⟩
  · rw [Checked.compile, Checked.read_eq, hread] at hc
    cases hc

end PatternAutomata
