import PatternAutomata.Pattern.Reader
/-!
# Grammar — which texts are patterns, and of what

A text is a pattern if it is empty or made of branches with bars between them; a branch is made of one item or more, and
an item is an atom with any number of repetition signs behind it.  An atom is a character that is no sign, a pattern in
parentheses, or a class in brackets.  `Derives` gives each text the tree that these rules make of it, joined one by one
from the left.
-/
namespace PatternAutomata
namespace Pattern

/-- The characters that never stand for themselves. -/
def signs : List Char := ['(', ')', '[', ']', '{', '}', '|', '*', '+', '?']

/-- The characters that a class holds in no place. -/
def brackets : List Char := ['[', ']', '(', ')']

/-- The digits of `n` in base ten, perhaps with zeros before them. -/
structure Numeral (digits : List Char) (n : Nat) : Prop where
  ne_nil : digits ≠ []
  isDigit : ∀ d ∈ digits, d.isDigit = true
  value_eq : Nat.ofDigitChars 10 digits 0 = n

/-- What stands between the brackets of a class, with its characters and ranges, the latest first.  Since no member
begins with a hyphen, a character with a hyphen behind it is the start of a range. -/
inductive Members : List Char → List Interval → Prop
  | nil : Members [] []
  | char {t : List Char} {intervals : List Interval} {c : Char} (ht : Members t intervals) (hc : c ∉ '-' :: brackets) :
      Members (t ++ [c]) (.single c :: intervals)
  | range {t : List Char} {intervals : List Interval} {lo hi : Char} (ht : Members t intervals)
      (hlo : lo ∉ '-' :: brackets) (hhi : hi ∉ brackets) (h : lo ≤ hi) :
      Members (t ++ [lo, '-', hi]) (⟨lo, hi, h⟩ :: intervals)

theorem Members.eq_nil_iff {t : List Char} {intervals : List Interval} (h : Members t intervals) :
    t = [] ↔ intervals = [] := by
  cases h with
  | nil => simp
  | char | range => simp

inductive Symbol where
  | pattern
  | branches
  | branch
  | item
  | atom

/-- The text is derived from the symbol, and the tree is what it stands for. -/
inductive Derives : Symbol → List Char → Pattern → Prop
  | empty : Derives .pattern [] (word [])
  | pattern {t : List Char} {p : Pattern} (h : Derives .branches t p) : Derives .pattern t p
  | branch {t : List Char} {p : Pattern} (h : Derives .branch t p) : Derives .branches t p
  | alt {s t : List Char} {p q : Pattern} (hs : Derives .branches s p) (ht : Derives .branch t q) :
      Derives .branches (s ++ '|' :: t) (alt p q)
  | item {t : List Char} {p : Pattern} (h : Derives .item t p) : Derives .branch t p
  | seq {s t : List Char} {p q : Pattern} (hs : Derives .branch s p) (ht : Derives .item t q) :
      Derives .branch (s ++ t) (seq p q)
  | atom {t : List Char} {p : Pattern} (h : Derives .atom t p) : Derives .item t p
  | star {t : List Char} {p : Pattern} (h : Derives .item t p) : Derives .item (t ++ ['*']) (star p)
  | plus {t : List Char} {p : Pattern} (h : Derives .item t p) : Derives .item (t ++ ['+']) (seq p (star p))
  | optional {t : List Char} {p : Pattern} (h : Derives .item t p) : Derives .item (t ++ ['?']) (count p .optional)
  | count {t least greatest : List Char} {p : Pattern} {times : Bounds} (h : Derives .item t p)
      (hleast : Numeral least times.least) (hgreatest : Numeral greatest times.greatest) :
      Derives .item (t ++ '{' :: least ++ ',' :: greatest ++ ['}']) (count p times)
  | char {c : Char} (h : c ∉ signs) : Derives .atom [c] (word [c])
  | group {t : List Char} {p : Pattern} (h : Derives .pattern t p) : Derives .atom ('(' :: t ++ [')']) p
  | oneOf {t : List Char} {intervals : List Interval} (h : Members t intervals) (ht : t ≠ []) :
      Derives .atom ('[' :: t ++ [']']) (oneOf intervals)

def Derivable (x : Symbol) (t : List Char) : Prop := ∃ p, Derives x t p

/-- Only a whole pattern can be empty. -/
theorem Derives.ne_nil {x : Symbol} {t : List Char} {p : Pattern} (h : Derives x t p) (hx : x ≠ .pattern) : t ≠ [] := by
  induction h with
  | empty => exact absurd rfl hx
  | pattern => exact absurd rfl hx
  | branch _ ih => exact ih nofun
  | item _ ih => exact ih nofun
  | atom _ ih => exact ih nofun
  | char => exact List.cons_ne_nil _ _
  | seq _ _ ih _ => exact List.append_ne_nil_of_left_ne_nil (ih nofun) _
  | alt | star | plus | optional | count | group | oneOf => simp

end Pattern
end PatternAutomata
