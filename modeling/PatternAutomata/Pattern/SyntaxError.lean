import PatternAutomata.Pattern
/-!
# SyntaxError — why a text is not a pattern

Each way in which a text fails to be a pattern is a cause of its own, found at the byte offset of a character.  The
wording is in `Cause.message` alone.
-/
namespace PatternAutomata

inductive SyntaxError.Cause where
  | finalBar
  /-- Nothing stands between the start of a text or group and a bar. -/
  | nothingBeforeBar
  /-- Nothing stands between a bar and what ends its branch. -/
  | emptyBranch
  | unopenedGroup
  | unclosedGroup
  | unopenedCount
  | unopenedClass
  | nothingToRepeat (sign : Char)
  | unclosedCount
  | notANumber (digits : List Char)
  /-- A repetition count goes on with a wrong character. -/
  | unexpected (wanted found : Char)
  | reversedCounts (least greatest : Nat)
  | unclosedClass
  | rangeWithoutStart
  /-- A range in a class ends with a character that cannot. -/
  | badRangeEnd (c : Char)
  | reversedRange (lo hi : Char)
  /-- A class holds a bracket or parenthesis. -/
  | unexpectedInClass (c : Char)
  | emptyClass
deriving DecidableEq

def SyntaxError.Cause.message : SyntaxError.Cause → String
  | .finalBar => "'|' cannot be the final character in a regex"
  | .nothingBeforeBar => "found '|' with no preceding content"
  | .emptyBranch => "alternation needed something to alternate"
  | .unopenedGroup => "found unbalanced ')'"
  | .unclosedGroup => "unbalanced '('"
  | .unopenedCount => "unbalanced '\x7d'"
  | .unopenedClass => "unbalanced ']'"
  | .nothingToRepeat sign => s!"'{sign}' has nothing to repeat"
  | .unclosedCount => "unterminated '\x7b'"
  | .notANumber digits => s!"expected number, found '{String.ofList digits}'"
  | .unexpected wanted found => s!"expected '{wanted}', found '{found}'"
  | .reversedCounts least greatest => s!"invalid repetition range \x7b{least},{greatest}\x7d"
  | .unclosedClass => "unclosed character class"
  | .rangeWithoutStart => "range with no start in character class"
  | .badRangeEnd c => s!"invalid range end '{c}' in character class"
  | .reversedRange lo hi => s!"invalid range {lo}-{hi}"
  | .unexpectedInClass c => s!"unexpected '{c}' inside of character class"
  | .emptyClass => "empty character class"

/-- A cause and the byte offset at which it was found. -/
structure SyntaxError where
  cause : SyntaxError.Cause
  offset : Nat
deriving DecidableEq

/-- The cause and its place, for a reader. -/
def SyntaxError.report (e : SyntaxError) : String := s!"{e.cause.message} at offset {e.offset}"

end PatternAutomata
