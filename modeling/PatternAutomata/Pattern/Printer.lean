import PatternAutomata.Pattern
/-!
# Printer — patterns written out

A pattern is written with no more parentheses than it needs to be read back with the same meaning: an alternation is
grouped inside a sequence, and whatever is longer than one character or one character set is grouped before a
repetition.  The empty word is written as an empty group, so that it stays visible.
-/
namespace PatternAutomata
namespace Pattern

/-- Whether the pattern is an alternation, which binds least. -/
def isAlt : Pattern → Bool
  | alt _ _ => true
  | _ => false

/-- Whether a repetition written behind the pattern would take only its last part. -/
def isLong : Pattern → Bool
  | word w => w.length > 1
  | seq _ _ => true
  | alt _ _ => true
  | star _ => false
  | count _ _ => false
  | oneOf _ => false

/-- The text in parentheses, where they are needed. -/
def groupedIf (needed : Bool) (text : List Char) : List Char :=
  if needed then '(' :: text ++ [')'] else text

def render : Pattern → List Char
  | word [] => ['(', ')']
  | word (c :: w) => c :: w
  | seq head tail => groupedIf head.isAlt head.render ++ groupedIf tail.isAlt tail.render
  | alt left right => left.render ++ '|' :: right.render
  | star p => groupedIf p.isLong p.render ++ ['*']
  | count p times =>
    groupedIf p.isLong p.render ++
      '{' :: (Nat.toDigits 10 times.least ++ ',' :: (Nat.toDigits 10 times.greatest ++ ['}']))
  | oneOf intervals => '[' :: (intervals.flatMap Interval.render ++ [']'])

end Pattern
end PatternAutomata
