import PatternAutomata.Interval.Compact
import PatternAutomata.Pattern.Balanced
import PatternAutomata.Pattern.SyntaxError
/-!
# Reader — texts read as patterns

A text is read one character at a time and never looked ahead into, so an error is decided by the characters up to the
one that shows it; only four errors come of the text's end (`Reader.finish`).  What has been read is kept on a stack:
finished items, the characters of a word still growing, open groups, and alternations that wait for their next branch.
Within a repetition count or a character class the reader is in a mode of its own.

Parentheses, brackets, braces, `|`, `*`, `+` and `?` are always signs; every other character stands for itself.
-/
namespace PatternAutomata
namespace Pattern

inductive Entry where
  | item (p : Pattern)
  /-- A growing word: its last character, and those before it, the latest first. -/
  | run (last : Char) (earlier : List Char)
  /-- A group opened at `offset`. -/
  | group (offset : Nat)
  /-- The finished branches of an alternation, the latest first. -/
  | branches (ps : List Pattern)

/-- What the reader is in the middle of. -/
inductive Mode where
  | items
  /-- After a bar, before the character that follows it. -/
  | bar (offset : Nat)
  /-- In the first number of a count of `p` opened at `opened`; the number begins at `start`. -/
  | least (p : Pattern) (opened start : Nat) (digits : List Char)
  | greatest (p : Pattern) (opened : Nat) (least : UInt32) (start : Nat) (digits : List Char)
  /-- In a class opened at `opened`; `last` may yet become the start of a range. -/
  | members (opened : Nat) (intervals : List Interval) (last : Option Char)
  /-- After the hyphen of a range that starts with `lo`. -/
  | rangeEnd (opened : Nat) (intervals : List Interval) (lo : Char)

structure Reader where
  /-- The entries read, the latest first. -/
  stack : List Entry
  mode : Mode
  offset : Nat

/-! ## Items and branches -/

/-- Puts a pattern before others; two words in a row are one word. -/
def glue : Pattern → List Pattern → List Pattern
  | word v, word w :: ps => word (v ++ w) :: ps
  | p, ps => p :: ps

/-- Takes the items off the stack down to the innermost open group or alternation, in reading order before those taken
already. -/
def takeItems : List Pattern → List Entry → List Pattern × List Entry
  | ps, .item p :: stack => takeItems (glue p ps) stack
  | ps, .run last earlier :: stack => takeItems (glue (word (last :: earlier).reverse) ps) stack
  | ps, stack => (ps, stack)

theorem glue_ne_nil {p : Pattern} {ps : List Pattern} : glue p ps ≠ [] := by
  unfold glue
  split
  · exact List.cons_ne_nil _ _
  · exact List.cons_ne_nil _ _

theorem takeItems_ne_nil {ps : List Pattern} {stack : List Entry} (h : ps ≠ []) : (takeItems ps stack).1 ≠ [] := by
  fun_induction takeItems ps stack with
  | case1 _ _ _ ih => exact ih glue_ne_nil
  | case2 _ _ _ _ ih => exact ih glue_ne_nil
  | case3 => exact h

/-- Takes the items off the stack as one pattern, if there are any. -/
def takeBranch (stack : List Entry) : Option Pattern × List Entry :=
  let (ps, rest) := takeItems [] stack
  (balanced seq ps, rest)

/-- Takes all that stands above the innermost open group as one pattern, if there is anything. -/
def takeContent (offset : Nat) (stack : List Entry) : Except SyntaxError (Option Pattern × List Entry) :=
  match takeBranch stack with
  | (some last, .branches ps :: rest) => .ok (balanced alt (last :: ps).reverse, rest)
  | (none, .branches _ :: _) => .error ⟨.emptyBranch, offset⟩
  | (content, rest) => .ok (content, rest)

def endBranch (offset : Nat) (stack : List Entry) : Except SyntaxError (List Entry) :=
  match takeBranch stack with
  | (some p, .branches ps :: rest) => .ok (.branches (p :: ps) :: rest)
  | (some p, rest) => .ok (.branches [p] :: rest)
  | (none, .branches _ :: _) => .error ⟨.emptyBranch, offset⟩
  | (none, _) => .error ⟨.nothingBeforeBar, offset⟩

/-- Ends a group; an empty one stands for the empty word. -/
def endGroup (offset : Nat) (stack : List Entry) : Except SyntaxError (List Entry) := do
  match ← takeContent offset stack with
  | (content, .group _ :: rest) => return .item (content.getD (word [])) :: rest
  | _ => throw ⟨.unopenedGroup, offset⟩

/-- Takes what a repetition sign applies to: the last item, or the last character of a growing word. -/
def takeOperand (sign : Char) (offset : Nat) : List Entry → Except SyntaxError (Pattern × List Entry)
  | .item p :: rest => .ok (p, rest)
  | .run last [] :: rest => .ok (word [last], rest)
  | .run last (c :: cs) :: rest => .ok (word [last], .run c cs :: rest)
  | _ => .error ⟨.nothingToRepeat sign, offset⟩

def pushChar (c : Char) : List Entry → List Entry
  | .run last earlier :: rest => .run c (last :: earlier) :: rest
  | stack => .run c [] :: stack

def readItem (offset : Nat) (stack : List Entry) (c : Char) : Except SyntaxError (List Entry × Mode) :=
  match c with
  | '(' => return (.group offset :: stack, .items)
  | ')' => return (← endGroup offset stack, .items)
  | '|' => return (stack, .bar offset)
  | '*' => do
    let (p, rest) ← takeOperand c offset stack
    return (.item (star p) :: rest, .items)
  | '+' => do
    let (p, rest) ← takeOperand c offset stack
    return (.item (seq p (star p)) :: rest, .items)
  | '?' => do
    let (p, rest) ← takeOperand c offset stack
    return (.item (count p .optional) :: rest, .items)
  | '{' => do
    let (p, rest) ← takeOperand c offset stack
    return (rest, .least p offset (offset + c.utf8Size) [])
  | '[' => return (stack, .members offset [] none)
  | '}' => throw ⟨.unopenedCount, offset⟩
  | ']' => throw ⟨.unopenedClass, offset⟩
  | c => return (pushChar c stack, .items)

/-! ## Repetition counts -/

def digitsValue (digits : List Char) : Nat := digits.foldl (fun n d => 10 * n + (d.toNat - '0'.toNat)) 0

/-- A 32-bit number in decimal digits. -/
def readCount? (digits : List Char) : Option UInt32 :=
  if digits ≠ [] ∧ digitsValue digits < UInt32.size then some (.ofNat (digitsValue digits)) else none

/-- The number that ends before a character which must be `wanted`. -/
def endCount (wanted : Char) (start : Nat) (digits : List Char) (offset : Nat) (c : Char) : Except SyntaxError UInt32 :=
  match readCount? digits with
  | none => .error ⟨.notANumber digits, start⟩
  | some n => if c = wanted then .ok n else .error ⟨.unexpected wanted c, offset⟩

/-- The pattern `p` repeated as a count opened at `opened` says. -/
def counted (p : Pattern) (opened : Nat) (least greatest : UInt32) : Except SyntaxError Pattern :=
  match Bounds.ofCounts least greatest with
  | .ok times => .ok (count p times)
  | .error _ => .error ⟨.reversedCounts least.toNat greatest.toNat, opened⟩

/-! ## Character classes -/

/-- Adds the character that did not become the start of a range. -/
def withLast (last : Option Char) (intervals : List Interval) : List Interval :=
  match last with
  | some c => .single c :: intervals
  | none => intervals

/-- The pattern of a class: its runs of characters as alternatives. -/
def ofClass (opened : Nat) (intervals : List Interval) : Except SyntaxError Pattern :=
  match balanced alt ((Interval.compact intervals).map fun i => oneOf [i]) with
  | some p => .ok p
  | none => .error ⟨.emptyClass, opened⟩

/-- Reads a character that may end a range in a class. -/
def readRangeEnd (offset : Nat) (lo c : Char) : Except SyntaxError Interval :=
  if c = ']' ∨ c = '[' ∨ c = '(' ∨ c = ')' then .error ⟨.badRangeEnd c, offset⟩
  else if h : lo ≤ c then .ok ⟨lo, c, h⟩
  else .error ⟨.reversedRange lo c, offset⟩

/-! ## The reader -/

namespace Reader

def start : Reader := ⟨[], .items, 0⟩

/-- What the character at `offset` makes of the stack and the mode. -/
def next (offset : Nat) (stack : List Entry) (c : Char) : Mode → Except SyntaxError (List Entry × Mode)
  | .items => readItem offset stack c
  | .bar barOffset => do readItem offset (← endBranch barOffset stack) c
  | .least p opened start digits =>
    if c.isDigit then return (stack, .least p opened start (digits ++ [c]))
    else return (stack, .greatest p opened (← endCount ',' start digits offset c) (offset + c.utf8Size) [])
  | .greatest p opened least start digits =>
    if c.isDigit then return (stack, .greatest p opened least start (digits ++ [c]))
    else return (.item (← counted p opened least (← endCount '}' start digits offset c)) :: stack, .items)
  | .members opened intervals last =>
    match c with
    | ']' => return (.item (← ofClass opened (withLast last intervals)) :: stack, .items)
    | '-' =>
      match last with
      | some lo => return (stack, .rangeEnd opened intervals lo)
      | none => throw ⟨.rangeWithoutStart, offset⟩
    | '[' => throw ⟨.unexpectedInClass c, offset⟩
    | '(' => throw ⟨.unexpectedInClass c, offset⟩
    | ')' => throw ⟨.unexpectedInClass c, offset⟩
    | c => return (stack, .members opened (withLast last intervals) (some c))
  | .rangeEnd opened intervals lo => return (stack, .members opened ((← readRangeEnd offset lo c) :: intervals) none)

def step (r : Reader) (c : Char) : Except SyntaxError Reader := do
  let (stack, mode) ← next r.offset r.stack c r.mode
  return ⟨stack, mode, r.offset + c.utf8Size⟩

def steps : Reader → List Char → Except SyntaxError Reader
  | r, [] => .ok r
  | r, c :: cs => do steps (← r.step c) cs

/-- **Reading is done character by character.**  What a text does to the reader does not depend on what follows. -/
theorem steps_append (r : Reader) (v w : List Char) : r.steps (v ++ w) = (r.steps v).bind (·.steps w) := by
  induction v generalizing r with
  | nil => rfl
  | cons c v ih =>
    show (r.step c).bind (·.steps (v ++ w)) = ((r.step c).bind (·.steps v)).bind (·.steps w)
    cases r.step c with
    | error e => rfl
    | ok s => exact ih s

/-- The pattern read when the text ends; nothing at all stands for the empty word. -/
def finish (r : Reader) : Except SyntaxError Pattern :=
  match r.mode with
  | .bar offset => throw ⟨.finalBar, offset⟩
  | .least _ opened _ _ => throw ⟨.unclosedCount, opened⟩
  | .greatest _ opened _ _ _ => throw ⟨.unclosedCount, opened⟩
  | .members opened _ _ => throw ⟨.unclosedClass, opened⟩
  | .rangeEnd opened _ _ => throw ⟨.unclosedClass, opened⟩
  | .items => do
    match ← takeContent r.offset r.stack with
    | (_, .group offset :: _) => throw ⟨.unclosedGroup, offset⟩
    | (content, _) => return content.getD (word [])

end Reader

def read (text : List Char) : Except SyntaxError Pattern := do (← Reader.start.steps text).finish

end Pattern
end PatternAutomata
