import PatternAutomata.Text.Quoted
/-!
# Fault — calls that break a precondition

Each operation that asks something of its arguments says so by a fault naming what was asked and what was given.  A
fault is the caller's mistake; only the lengths of a pattern may be at fault by themselves, when they do not fit 64 bits.
A computation that can end in a fault or in another error gives a value when all its parts do (`bind_eq_ok`), and
otherwise the error of the first part that does not (`bind_eq_error`).  Over a list, steps that give values are a plain map or fold (`mapM_eq_ok`, `foldlM_eq_ok`).
-/
namespace PatternAutomata

inductive Fault where
  /-- An interval whose first character comes after its last. -/
  | reversedInterval (lo hi : Char)
  /-- A repetition with a least count above its greatest. -/
  | reversedCounts (least greatest : Nat)
  /-- A value above the greatest that an index set admits. -/
  | valueTooLarge (value bound : Nat)
  /-- A position at or past the number of members of an index set. -/
  | positionTooLarge (position size : Nat)
  /-- A state that an automaton of `count` states does not have. -/
  | noSuchState (count index : Nat)
  /-- A sum of lengths that does not fit 64 bits. -/
  | sumTooLarge
  /-- A product of lengths that does not fit 64 bits. -/
  | productTooLarge
deriving DecidableEq

def Fault.message : Fault → String
  | .reversedInterval lo hi => s!"invalid CharRange: start {Text.quotedChar lo} > end {Text.quotedChar hi}"
  | .reversedCounts least greatest => s!"counted repetition with min {least} > max {greatest}"
  | .valueTooLarge value bound => s!"SparseSet value out of range: id={value}, capacity={bound}"
  | .positionTooLarge position size => s!"SparseSet index out of bounds: index={position}, len={size}"
  | .noSuchState count index => s!"index out of bounds: the len is {count} but the index is {index}"
  | .sumTooLarge => "attempt to add with overflow"
  | .productTooLarge => "attempt to multiply with overflow"

theorem bind_eq_ok {ε α β : Type} {x : Except ε α} {f : α → Except ε β} {b : β} :
    x.bind f = .ok b ↔ ∃ a, x = .ok a ∧ f a = .ok b := by
  cases x with
  | error e => simp [Except.bind]
  | ok a => simp [Except.bind]

theorem bind_eq_error {ε α β : Type} {x : Except ε α} {f : α → Except ε β} {e : ε} :
    x.bind f = .error e ↔ x = .error e ∨ ∃ a, x = .ok a ∧ f a = .error e := by
  cases x with
  | error e => simp [Except.bind]
  | ok a => simp [Except.bind]

theorem mapM_eq_ok {ε α β : Type} {f : α → Except ε β} {g : α → β} {xs : List α} (h : ∀ x ∈ xs, f x = .ok (g x)) :
    xs.mapM f = .ok (xs.map g) := by
  induction xs with
  | nil => rfl
  | cons x xs ih =>
    rw [List.mapM_cons, h x List.mem_cons_self, ih fun y hy => h y (List.mem_cons_of_mem _ hy)]
    rfl

theorem foldlM_eq_ok {ε α σ : Type} {f : σ → α → Except ε σ} {g : σ → α → σ} {P : σ → Prop} {xs : List α}
    (h : ∀ s, P s → ∀ x ∈ xs, f s x = .ok (g s x) ∧ P (g s x)) {s : σ} (hs : P s) :
    xs.foldlM f s = .ok (xs.foldl g s) := by
  induction xs generalizing s with
  | nil => rfl
  | cons x xs ih =>
    obtain ⟨hx, hg⟩ := h s hs x List.mem_cons_self
    rw [List.foldlM_cons, hx]
    exact ih (fun t ht y hy => h t ht y (List.mem_cons_of_mem _ hy)) hg

end PatternAutomata
