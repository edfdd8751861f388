import PatternAutomata.Interval
import PatternAutomata.Word
/-!
# Pattern — regular expressions as trees

A pattern is built from words and character sets by sequence, alternation and repetition.  This module holds the tree
and what is read off it directly: how short and how long a matching word can be, how tall the tree is, and the pattern
of the reversed words.
-/
namespace PatternAutomata

/-- How often a pattern may be repeated: at least `least` and at most `greatest` times, in 32 bits. -/
structure Bounds where
  least : Nat
  greatest : Nat
  least_le_greatest : least ≤ greatest
  greatest_lt : greatest < UInt32.size
deriving DecidableEq

namespace Bounds

def optional : Bounds := ⟨0, 1, by decide, by decide⟩

/-- The bounds given by two counts in order. -/
def ofCounts (least greatest : UInt32) : Except Fault Bounds :=
  if h : least.toNat ≤ greatest.toNat then .ok ⟨least.toNat, greatest.toNat, h, greatest.toNat_lt⟩
  else .error (.reversedCounts least.toNat greatest.toNat)

end Bounds

inductive Pattern where
  /-- The one word `w`; the empty word is allowed. -/
  | word (w : Word)
  | seq (head tail : Pattern)
  | alt (left right : Pattern)
  | star (p : Pattern)
  | count (p : Pattern) (times : Bounds)
  /-- One character out of one of the intervals. -/
  | oneOf (intervals : List Interval)
deriving DecidableEq

namespace Pattern

/-! ## Lengths -/

/-- A length in 64 bits, if it fits. -/
def fit? (n : Nat) : Option UInt64 := if n < UInt64.size then some (.ofNat n) else none

/-- A length in 64 bits, which is at fault if it does not fit. -/
def fit (f : Fault) (n : Nat) : Except Fault UInt64 := (fit? n).elim (.error f) .ok

/-- The length of the shortest matching word, in 64-bit arithmetic; a sum or product that does not fit is at fault. -/
def minLength : Pattern → Except Fault UInt64
  | word w => fit .sumTooLarge w.length
  | seq head tail => do fit .sumTooLarge ((← head.minLength).toNat + (← tail.minLength).toNat)
  | alt left right => do return min (← left.minLength) (← right.minLength)
  | star _ => return 0
  | count p times => do fit .productTooLarge ((← p.minLength).toNat * times.least)
  | oneOf _ => return 1

/-- Combines two lengths that are there.  The second is not asked for if the first is missing, nor is its fault met. -/
def both (op : UInt64 → UInt64 → Except Fault UInt64) (x y : Except Fault (Option UInt64)) :
    Except Fault (Option UInt64) := do
  let some m ← x | return none
  let some n ← y | return none
  return some (← op m n)

/-- The length of the longest matching word, in 64-bit arithmetic; `none` if the lengths are unbounded or a product does
not fit.  A sum that does not fit is at fault. -/
def maxLength : Pattern → Except Fault (Option UInt64)
  | word w => return some (← fit .sumTooLarge w.length)
  | seq head tail => both (fun m n => fit .sumTooLarge (m.toNat + n.toNat)) head.maxLength tail.maxLength
  | alt left right => both (fun m n => .ok (max m n)) left.maxLength right.maxLength
  | star _ => return none
  | count p times => return (← p.maxLength).bind fun m => fit? (m.toNat * times.greatest)
  | oneOf _ => return some 1

section

variable {f g : Fault} {n : Nat} {k : UInt64} {op : UInt64 → UInt64 → Except Fault UInt64}
  {x y : Except Fault (Option UInt64)}

theorem fit?_eq_some : fit? n = some k ↔ k.toNat = n := by
  unfold fit?
  constructor
  · intro h
    split at h
    · rename_i hn
      cases h
      exact UInt64.toNat_ofNat_of_lt' hn
    · cases h
  · rintro rfl
    rw [if_pos k.toNat_lt_size, UInt64.ofNat_toNat]

theorem fit?_eq_none : fit? n = none ↔ UInt64.size ≤ n := by
  unfold fit?
  split <;> simp <;> omega

theorem fit_eq_ok : fit f n = .ok k ↔ k.toNat = n := by
  rw [← fit?_eq_some, fit]
  cases fit? n <;> simp

theorem fit_eq_error : fit f n = .error g ↔ UInt64.size ≤ n ∧ f = g := by
  rw [← fit?_eq_none, fit]
  cases fit? n <;> simp

theorem exists_fit_iff : (∃ k, fit f n = .ok k) ↔ n < UInt64.size := by
  constructor
  · rintro ⟨k, hk⟩
    exact fit_eq_ok.1 hk ▸ k.toNat_lt_size
  · intro hn
    exact ⟨.ofNat n, fit_eq_ok.2 (UInt64.toNat_ofNat_of_lt' hn)⟩

theorem both_bind : both op x y = x.bind fun o => o.elim (.ok none) fun m =>
    y.bind fun o => o.elim (.ok none) fun n => (op m n).bind fun k => .ok (some k) := by
  rcases x with f | _ | m
  · rfl
  · rfl
  · rcases y with g | _ | n <;> rfl

/-- There is a length when both are there and can be combined. -/
theorem both_eq_some : both op x y = .ok (some k) ↔ ∃ m n, x = .ok (some m) ∧ y = .ok (some n) ∧ op m n = .ok k := by
  simp [both_bind, bind_eq_ok, Option.exists]

/-- There is none when the first is missing, or the second where the first is not. -/
theorem both_eq_none : both op x y = .ok none ↔ x = .ok none ∨ (∃ m, x = .ok (some m)) ∧ y = .ok none := by
  simp [both_bind, bind_eq_ok, Option.exists]

/-- At fault is the first, or the second where the first is there, or how they combine where both are. -/
theorem both_eq_error : both op x y = .error f ↔
    x = .error f ∨ ∃ m, x = .ok (some m) ∧ (y = .error f ∨ ∃ n, y = .ok (some n) ∧ op m n = .error f) := by
  simp [both_bind, bind_eq_error, Option.exists]

end

/-! ## Height and reversal -/

def height : Pattern → Nat
  | word _ => 1
  | oneOf _ => 1
  | seq head tail => 1 + max head.height tail.height
  | alt left right => 1 + max left.height right.height
  | star p => 1 + p.height
  | count p _ => 1 + p.height

def reverse : Pattern → Pattern
  | word w => word w.reverse
  | seq head tail => seq tail.reverse head.reverse
  | alt left right => alt left.reverse right.reverse
  | star p => star p.reverse
  | count p times => count p.reverse times
  | oneOf intervals => oneOf intervals

@[simp] theorem reverse_reverse : ∀ p : Pattern, p.reverse.reverse = p
  | word w => congrArg word w.reverse_reverse
  | seq head tail => by rw [reverse, reverse, head.reverse_reverse, tail.reverse_reverse]
  | alt left right => by rw [reverse, reverse, left.reverse_reverse, right.reverse_reverse]
  | star p => congrArg star p.reverse_reverse
  | count p times => congrArg (count · times) p.reverse_reverse
  | oneOf _ => rfl

end Pattern
end PatternAutomata
