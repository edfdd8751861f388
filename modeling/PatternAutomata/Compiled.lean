import PatternAutomata.Dfa.Forced
import PatternAutomata.Dfa.Minimal
import PatternAutomata.Dfa.OfNfa
import PatternAutomata.Facts
import PatternAutomata.Nfa.OfPattern
import PatternAutomata.Pattern.Reader
import PatternAutomata.Pattern.Printer
/-!
# Compiled — patterns ready to be matched

Compiling reads a text as a pattern, builds the pattern's automaton, follows all its runs at once, and merges what
behaves alike.  The result keeps the stages, and answers from the last of them.
-/
namespace PatternAutomata

/-- A pattern with its automata. -/
structure Compiled where
  text : List Char
  pattern : Pattern
  nfa : Nfa
  /-- The automaton of sets of states. -/
  raw : Dfa
  /-- The automaton that answers, in which states that behave alike are merged. -/
  dfa : Dfa

inductive CompileError where
  | malformed (e : SyntaxError)
  /-- A stage was handed something that it does not take. -/
  | fault (f : Fault)
deriving DecidableEq

/-- How closely a log line follows the work. -/
inductive LogLevel where
  | trace
  | debug
deriving DecidableEq

structure LogLine where
  level : LogLevel
  message : String
deriving DecidableEq

namespace Compiled

def ofPattern (text : List Char) (p : Pattern) : Except Fault Compiled := do
  let nfa := Nfa.ofPattern p
  let raw ← Dfa.ofNfa nfa
  return ⟨text, p, nfa, raw, raw.minimize⟩

theorem ofPattern_eq_ok {text : List Char} {p : Pattern} {c : Compiled} (h : ofPattern text p = .ok c) :
    Dfa.ofNfa (Nfa.ofPattern p) = .ok c.raw ∧ c = ⟨text, p, Nfa.ofPattern p, c.raw, c.raw.minimize⟩ := by
  obtain ⟨raw, hraw, h⟩ := bind_eq_ok.1 h
  cases h
  exact ⟨hraw, rfl⟩

def facts (c : Compiled) : Facts := .ofPattern c.pattern

/-- Whether the whole of a text matches. -/
def isMatch (c : Compiled) (w : Word) : Bool := c.dfa.accepts w

/-- The same for the reversed words; the reversed pattern written out is its text. -/
def reverse (c : Compiled) : Except Fault Compiled := ofPattern c.pattern.reverse.render c.pattern.reverse

/-- The lines that describe the compilation: one for each round of merging, then a summary. -/
def log (c : Compiled) : List LogLine :=
  let rounds := c.raw.refinement.rounds.zipIdx 1 |>.map fun ((before, after), round) =>
    ⟨.trace, s!"minimize round {round}: {before} -> {after} classes"⟩
  let summary := s!"compiled {Text.quoted c.text}: {c.nfa.size} NFA states, {c.raw.size} DFA states, " ++
    s!"{c.dfa.size} minimal, chain {c.dfa.chain.length}"
  rounds ++ [⟨.debug, summary⟩]

end Compiled

def compile (text : List Char) : Except CompileError Compiled :=
  match Pattern.read text with
  | .error e => .error (.malformed e)
  | .ok p => (Compiled.ofPattern text p).mapError .fault

/-- **Compiling succeeds** exactly on a text that is read as a pattern whose automata can be built. -/
theorem compile_eq_ok {text : List Char} {c : Compiled} :
    compile text = .ok c ↔ ∃ p, Pattern.read text = .ok p ∧ Compiled.ofPattern text p = .ok c := by
  constructor
  · intro h
    unfold compile at h
    split at h
    · cases h
    · rename_i p hp
      refine ⟨p, hp, ?_⟩
      cases hc : Compiled.ofPattern text p with
      | error f => rw [hc] at h; cases h
      | ok d => rw [hc] at h; cases h; rfl
  · rintro ⟨p, hp, hc⟩
    unfold compile
    rw [hp]
    change (Compiled.ofPattern text p).mapError CompileError.fault = .ok c
    rw [hc]
    rfl

/-- Compiles a text for the reversed words. -/
def compileReversed (text : List Char) : Except CompileError Compiled := do
  let c ← compile text
  c.reverse.mapError .fault

end PatternAutomata
