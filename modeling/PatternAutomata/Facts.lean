import PatternAutomata.Pattern
import PatternAutomata.WordSet
/-!
# Facts — words that every match must show

Before an automaton is run on a text, a search for fixed words can rule the text out.  The facts of a pattern are sets
of words such that every match begins with a word of the first set, ends with a word of the second, contains a word of
the third, and is a word of the fourth.  A set that is missing says nothing; so does one with the empty word in it,
except the fourth.  Sets that would grow beyond `maxWords` are given up.
-/
namespace PatternAutomata

structure Facts where
  /-- Every match begins with one of these. -/
  prefixes : Option WordSet
  /-- Every match ends with one of these. -/
  suffixes : Option WordSet
  /-- Every match contains one of these. -/
  factors : Option WordSet
  /-- The matches are exactly these. -/
  all : Option WordSet
deriving DecidableEq

namespace Facts

/-- The size up to which sets are kept. -/
def maxWords : Nat := 64

/-- The number of characters up to which a character set is spelled out. -/
def maxClassSize : Nat := 16

/-- The number of copies up to which repetitions are spelled out. -/
def maxCopies : Nat := 8

/-- The number of first characters up to which they are reported. -/
def maxInitials : Nat := 8

/-! ## Combining sets -/

/-- The words of one set followed by those of another, unless there are too many pairs. -/
def cross : Option WordSet → Option WordSet → Option WordSet
  | some s, some t => if s.size * t.size ≤ maxWords then some (s.product t) else none
  | _, _ => none

def either : Option WordSet → Option WordSet → Option WordSet
  | some s, some t => if (s.union t).size ≤ maxWords then some (s.union t) else none
  | _, _ => none

/-- Whether `s` tells texts apart better than `t`: by a longer shortest word, then by fewer words, then by more
characters in all. -/
def isBetter (s t : WordSet) : Bool :=
  t.shortest < s.shortest ||
    (t.shortest == s.shortest && (s.size < t.size || (s.size == t.size && t.total < s.total)))

inductive Side where
  | left
  | right
deriving DecidableEq

/-- Which candidate is the better one for a search.  A missing set loses to any other and an empty one to any with
words; of two that are equally good the right one is chosen. -/
def choose : Option WordSet → Option WordSet → Side
  | none, _ => .right
  | some _, none => .left
  | some s, some t =>
    if s.isEmpty then .right
    else if t.isEmpty then .left
    else if isBetter s t then .left
    else .right

def best (s t : Option WordSet) : Option WordSet :=
  match choose s t with
  | .left => s
  | .right => t

/-! ## Facts of patterns -/

def absent : Facts := ⟨none, none, none, none⟩

/-- The matches are exactly the words of `s`. -/
def exact (s : WordSet) : Facts := ⟨some s, some s, some s, some s⟩

/-- The facts of a match of the first followed by a match of the second. -/
def concatenate (f g : Facts) : Facts where
  prefixes := best f.prefixes (cross f.all g.prefixes)
  suffixes := best g.suffixes (cross f.suffixes g.all)
  factors := best (best f.factors g.factors) (cross f.suffixes g.prefixes)
  all := cross f.all g.all

def union (f g : Facts) : Facts where
  prefixes := either f.prefixes g.prefixes
  suffixes := either f.suffixes g.suffixes
  factors := either f.factors g.factors
  all := either f.all g.all

/-- The facts of any number of matches: none may be there, so nothing but the empty word is certain. -/
def starred (f : Facts) : Facts := { absent with factors := f.factors.map fun _ => .emptyWord }

/-- The facts of `k` matches in a row, from the empty word on. -/
def power (f : Facts) : Nat → Facts
  | 0 => exact .emptyWord
  | k + 1 => (f.power k).concatenate f

/-- The facts of from `least` to `least + more` matches in a row. -/
def powers (f : Facts) (least : Nat) : Nat → Facts
  | 0 => f.power least
  | more + 1 => (f.powers least more).union (f.power (least + more + 1))

/-- The facts of `k + 1` matches in a row. -/
def copies (f : Facts) : Nat → Facts
  | 0 => f
  | k + 1 => (f.copies k).concatenate f

/-- The facts of a bounded number of matches in a row.  Where the numbers are too large to be spelled out, a match still
begins and ends with as many matches as are certain. -/
def repeated (f : Facts) (times : Bounds) : Facts :=
  if times.greatest ≤ maxCopies then
    let spelled := f.powers times.least (times.greatest - times.least)
    let certain := f.power times.least
    { prefixes := spelled.prefixes.or certain.prefixes
      suffixes := spelled.suffixes.or certain.suffixes
      factors := spelled.factors.or certain.factors
      all := spelled.all }
  else
    match min times.least maxCopies with
    | 0 => { exact .emptyWord with all := none }
    | k + 1 => { f.copies k with all := none }

def ofClass (intervals : List Interval) : Facts :=
  if Interval.totalSize intervals ≤ maxClassSize then
    exact (.ofList ((intervals.flatMap Interval.chars).map fun c => [c]))
  else absent

def ofPattern : Pattern → Facts
  | .word w => exact (.ofList [w])
  | .oneOf intervals => ofClass intervals
  | .seq head tail => (ofPattern head).concatenate (ofPattern tail)
  | .alt left right => (ofPattern left).union (ofPattern right)
  | .star p => (ofPattern p).starred
  | .count p times => (ofPattern p).repeated times

/-! ## What a search can use -/

/-- The characters that a match can begin with, ascending, if every match has one and they are few. -/
def initials (f : Facts) : Option (List Char) :=
  match f.prefixes with
  | some s =>
    if s.isEmpty ∨ [] ∈ s.words then none
    else
      let cs := ascending (s.words.filterMap List.head?)
      if cs.length ≤ maxInitials then some cs else none
  | none => none

/-- The longest word, but not the empty one, that every match begins with. -/
def sharedStart (f : Facts) : Option Word :=
  match f.prefixes.map WordSet.words with
  | some (w :: ws) =>
    match ws.foldl (fun n v => min n (Word.agreement w v)) w.length with
    | 0 => none
    | n + 1 => some (w.take (n + 1))
  | _ => none

end Facts
end PatternAutomata
