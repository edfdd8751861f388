import PatternAutomata.Text.Shapeless
/-!
# Quoted — characters and texts between quotes

A quoted text shows what a reader could not see or would take for the closing quote: the quote itself and `\` are
written behind a `\`, the usual control characters by a letter, other shapeless characters by their hexadecimal code
point.
-/
namespace PatternAutomata
namespace Text

/-- How `c` is written between two `quote`s. -/
def escape (quote c : Char) : List Char :=
  if c = quote ∨ c = '\\' then ['\\', c]
  else if c = '\t' then ['\\', 't']
  else if c = '\n' then ['\\', 'n']
  else if c = '\r' then ['\\', 'r']
  else if c = '\x00' then ['\\', '0']
  else if isShapeless c then ['\\', 'u', '\x7b'] ++ Nat.toDigits 16 c.toNat ++ ['\x7d']
  else [c]

def quotedChar (c : Char) : String := String.ofList ('\'' :: escape '\'' c ++ ['\''])

def quoted (text : List Char) : String := String.ofList ('"' :: text.flatMap (escape '"') ++ ['"'])

end Text
end PatternAutomata
