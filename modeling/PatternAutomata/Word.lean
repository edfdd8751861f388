/-!
# Word — texts as their characters
-/
namespace PatternAutomata

/-- A text as the list of its characters; lengths and positions count characters. -/
abbrev Word := List Char

namespace Word

/-- How many characters two words have in common at their beginning. -/
def agreement : Word → Word → Nat
  | a :: v, b :: w => if a = b then agreement v w + 1 else 0
  | _, _ => 0

theorem take_agreement : ∀ v w : Word, v.take (agreement v w) = w.take (agreement v w)
  | [], _ => by cases ‹Word› <;> rfl
  | _ :: _, [] => rfl
  | a :: v, b :: w => by
    unfold agreement
    split
    · rename_i h
      rw [h, List.take_succ_cons, List.take_succ_cons, take_agreement v w]
    · rfl

end Word
end PatternAutomata
