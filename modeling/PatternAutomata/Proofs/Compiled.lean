import PatternAutomata.Compiled
import PatternAutomata.Proofs.Dfa.Canonical
import PatternAutomata.Proofs.Dfa.Forced
import PatternAutomata.Proofs.Dfa.Restriction
import PatternAutomata.Proofs.Nfa.OfPattern
import PatternAutomata.Proofs.Pattern.Reader
import PatternAutomata.Proofs.Pattern.Recognition
/-!
# Compiled — what compiling a pattern gives

Every text that is read as a pattern can be compiled, and what answers in the end is canonical for the words it accepts
(`exists_compile`).  No stage loses a match, from the text to the last automaton (`isMatch_of_matches`).  The chain holds
for all matches exactly if it does not exclude the empty word (`chain_obeyed_iff`).
-/
namespace PatternAutomata

variable {s t : List Char} {p q : Pattern} {w : Word}

/-- **A pattern without empty character sets has a canonical automaton.** -/
theorem Dfa.exists_canonical (hp : p.Filled) : ∃ raw, Dfa.ofNfa (Nfa.ofPattern p) = .ok raw ∧
    raw.minimize.Canonical ∧ ∀ w, raw.minimize.accepts w = true ↔ p.Accepted w := by
  have hn := Nfa.wellFormed_ofPattern p
  obtain ⟨raw, keys, hraw, hsubsets⟩ := exists_ofNfa hn
  have hlive : ∀ i, i < raw.size → ∃ w, raw.acceptsFrom i w = true := fun i hi =>
    hsubsets.live hn (fun j hj => Nfa.live_ofPattern hp hj) hi
  refine ⟨raw, hraw, canonical_minimize hsubsets.wellFormed hlive, fun w => ?_⟩
  rw [accepts_minimize_eq hsubsets.wellFormed, hsubsets.accepts_iff hn, Nfa.hasRun_ofPattern]

theorem exists_ofPattern (hp : p.Filled) (text : List Char) : ∃ c, Compiled.ofPattern text p = .ok c ∧ c.pattern = p ∧
    c.dfa.Canonical ∧ ∀ w, c.isMatch w = true ↔ p.Accepted w := by
  obtain ⟨raw, hraw, hcanonical, haccepts⟩ := Dfa.exists_canonical hp
  refine ⟨⟨text, p, Nfa.ofPattern p, raw, raw.minimize⟩, ?_, rfl, hcanonical, haccepts⟩
  change (Dfa.ofNfa (Nfa.ofPattern p)).bind _ = _
  rw [hraw]
  rfl

theorem exists_compile (hp : Pattern.read s = .ok p) : ∃ c, compile s = .ok c ∧ c.pattern = p ∧ c.dfa.Canonical ∧
    ∀ w, c.isMatch w = true ↔ p.Accepted w := by
  obtain ⟨c, hc, h⟩ := exists_ofPattern (Pattern.filled_of_read hp) s
  exact ⟨c, compile_eq_ok.2 ⟨p, hp, hc⟩, h⟩

/-- **The stages give one answer.** -/
theorem Compiled.accepts_eq_isMatch {c : Compiled} (h : ofPattern s p = .ok c) (w : Word) :
    c.nfa.accepts w = .ok (c.isMatch w) ∧ c.raw.accepts w = c.isMatch w := by
  obtain ⟨hraw, hc⟩ := ofPattern_eq_ok h
  have hn := Nfa.wellFormed_ofPattern p
  obtain ⟨raw, keys, hraw', hsubsets⟩ := Dfa.exists_ofNfa hn
  cases hraw.symm.trans hraw'
  have hnfa : c.nfa = Nfa.ofPattern p := congrArg nfa hc
  have hdfa : c.dfa = c.raw.minimize := congrArg dfa hc
  have hmatch : c.isMatch w = c.raw.accepts w := by
    rw [isMatch, hdfa, Dfa.accepts_minimize_eq hsubsets.wellFormed]
  obtain ⟨b, hb, hrun⟩ := Nfa.exists_accepts hn w
  have hb' : b = c.isMatch w := Bool.eq_iff_iff.2 (by rw [hmatch, hrun, hsubsets.accepts_iff hn])
  exact ⟨by rw [hnfa, hb, hb'], hmatch.symm⟩

/-- **No match is lost.**  Whichever tree the text has by the grammar, the words of that tree are accepted at every
stage; and nothing else is accepted, where each repetition matches what leads its part back to the start. -/
theorem isMatch_of_matches (hp : Pattern.read s = .ok p) : ∃ c, compile s = .ok c ∧ c.pattern = p ∧
    (∀ w, p.Matches w → c.nfa.accepts w = .ok true ∧ c.raw.accepts w = true ∧ c.isMatch w = true) ∧
    (∀ q, Pattern.Derives .pattern s q → ∀ w, q.Matches w → c.isMatch w = true) ∧
    ((∀ q, .star q ∈ p.parts → ∀ w, q.Leads w → (Pattern.star q).Matches w) →
      ∀ w, c.isMatch w = true → p.Matches w) := by
  obtain ⟨c, hc, hpattern, -, hiff⟩ := exists_ofPattern (Pattern.filled_of_read hp) s
  have hmatch (w : Word) (hw : p.Matches w) : c.isMatch w = true := (hiff w).2 (Pattern.accepted_of_matches hw)
  refine ⟨c, compile_eq_ok.2 ⟨p, hp, hc⟩, hpattern, fun w hw => ?_, fun q hq w hw => ?_, fun hleads w hw => ?_⟩
  · obtain ⟨hnfa, hraw⟩ := Compiled.accepts_eq_isMatch hc w
    rw [hnfa, hraw, hmatch w hw]
    exact ⟨rfl, rfl, rfl⟩
  · -- whatever tree the grammar gives the text, the reader's is interchangeable with it
    obtain ⟨p', hp', hpq⟩ := Pattern.exists_read hq
    cases hp.symm.trans hp'
    exact hmatch w ((hpq.matches_iff w).2 hw)
  · exact ((Pattern.accepted_iff_of_leads hleads).1 w).1 ((hiff w).1 hw)

/-- A count in an alternation in a repetition: `bba` is two rounds of `(a|b{2,2})*`. -/
theorem isMatch_of_matches_nested :
    ∃ c, compile "(a|b\x7b2,2\x7d)*".toList = .ok c ∧ c.isMatch ['b', 'b', 'a'] = true := by
  let q : Pattern := .count (.word ['b']) ⟨2, 2, by decide, by decide⟩
  have hp : Pattern.read "(a|b\x7b2,2\x7d)*".toList = .ok (.star (.alt (.word ['a']) q)) := by with_unfolding_all rfl
  obtain ⟨c, hc, -, hmatch, -⟩ := isMatch_of_matches hp
  have hbb : q.Matches ['b', 'b'] := ⟨2, Nat.le_refl 2, Nat.le_refl 2, ['b'], ['b'], rfl, rfl, repeats_one.2 rfl⟩
  have hrounds : Repeats (Pattern.alt (.word ['a']) q).Matches 2 ['b', 'b', 'a'] :=
    ⟨['b', 'b'], ['a'], rfl, .inr hbb, repeats_one.2 (.inl rfl)⟩
  exact ⟨c, hc, (hmatch _ ⟨2, hrounds⟩).2.2⟩

/-- **The automaton of a pattern is decided by the words it accepts**: it has one state for each residual that is not
empty, and patterns that match the same words get the same states, moves and forced positions. -/
theorem compile_canonical (hp : Pattern.read s = .ok p) (hq : Pattern.read t = .ok q) :
    ∃ c d, compile s = .ok c ∧ compile t = .ok d ∧
      Set.encard {M : Set Word | M.Nonempty ∧ ∃ u, M = {v | c.isMatch (u ++ v) = true}} = c.dfa.size ∧
      ((∀ w, c.isMatch w = d.isMatch w) → c.dfa.size = d.dfa.size ∧
        (∀ i < c.dfa.size, (c.dfa.state i).accepting = (d.dfa.state i).accepting ∧
          ∀ a, (c.dfa.state i).next? a = (d.dfa.state i).next? a) ∧
        c.dfa.offset = d.dfa.offset ∧ c.dfa.offsets = d.dfa.offsets) := by
  obtain ⟨c, hc, -, hcanonical, -⟩ := exists_compile hp
  obtain ⟨d, hd, -, hcanonical', -⟩ := exists_compile hq
  refine ⟨c, d, hc, hd, hcanonical.encard_residuals, fun h => ?_⟩
  have hagree : c.dfa.Agree d.dfa := hcanonical.agree hcanonical' h
  refine ⟨hagree.size_eq, fun i _ => ⟨hagree.accepting_eq i, hagree.next?_eq i⟩, ?_, ?_⟩
  · exact hagree.offset_eq hcanonical.wellFormed hcanonical'.wellFormed
  · exact hagree.offsets_eq hcanonical.wellFormed hcanonical'.wellFormed

/-- `a|b` and `[ab]` are read as different patterns and get the same automaton. -/
theorem compile_canonical_choice : ∃ c d, compile ['a', '|', 'b'] = .ok c ∧ compile ['[', 'a', 'b', ']'] = .ok d ∧
    (∀ w, c.isMatch w = d.isMatch w) ∧ c.dfa.size = d.dfa.size ∧ c.dfa.offsets = d.dfa.offsets := by
  have hp : Pattern.read ['a', '|', 'b'] = .ok (.alt (.word ['a']) (.word ['b'])) := by with_unfolding_all rfl
  have hq : Pattern.read ['[', 'a', 'b', ']'] = .ok (.oneOf [⟨'a', 'b', by decide⟩]) := by
    with_unfolding_all rfl
  obtain ⟨c, d, hc, hd, -, hagree⟩ := compile_canonical hp hq
  obtain ⟨c', hc', -, -, hmatch⟩ := exists_compile hp
  obtain ⟨d', hd', -, -, hmatch'⟩ := exists_compile hq
  cases hc.symm.trans hc'
  cases hd.symm.trans hd'
  have heq (w : Word) : c.isMatch w = d.isMatch w := by
    rw [Bool.eq_iff_iff, hmatch, hmatch']
    constructor
    · rintro (rfl | rfl)
      · exact ⟨_, List.mem_singleton.2 rfl, 'a', by decide, rfl⟩
      · exact ⟨_, List.mem_singleton.2 rfl, 'b', by decide, rfl⟩
    · rintro ⟨i, hi, a, ha, rfl⟩
      rw [List.mem_singleton.1 hi, ← Interval.mem_chars] at ha
      have hchars : Interval.chars ⟨'a', 'b', by decide⟩ = ['a', 'b'] := rfl
      rw [hchars] at ha
      exact (List.mem_cons.1 ha).imp (congrArg ([·])) fun ha => congrArg ([·]) (List.mem_singleton.1 ha)
  exact ⟨c, d, hc, hd, heq, (hagree heq).1, (hagree heq).2.2.2⟩

/-- **Which matches obey the chain**: all but the empty word, and the empty word too if the chain is empty. -/
theorem chain_obeyed_iff (hp : Pattern.read s = .ok p) : ∃ c, compile s = .ok c ∧
    (∀ w, w ≠ [] → c.isMatch w = true → Dfa.Obeys c.dfa.chain w) ∧
    ((∀ w, c.isMatch w = true → Dfa.Obeys c.dfa.chain w) ↔ (c.isMatch [] = true → c.dfa.chain = [])) := by
  obtain ⟨c, hc, -, hcanonical, -⟩ := exists_compile hp
  have hwf := hcanonical.wellFormed
  exact ⟨c, hc, fun w hne hw => hwf.chain_restricts hne hw, hwf.chain_restricts_iff⟩

/-- All matches of `[a-c]x{2,3}` begin with a letter from `a` to `c` and an `x`. -/
theorem chain_obeyed_class : ∃ c, compile "[a-c]x\x7b2,3\x7d".toList = .ok c ∧
    c.dfa.chain = [⟨'a', 'c', by decide⟩, .single 'x'] ∧ ∀ w, c.isMatch w = true → Dfa.Obeys c.dfa.chain w := by
  have hread : ∃ p, Pattern.read "[a-c]x\x7b2,3\x7d".toList = .ok p := ⟨_, by with_unfolding_all rfl⟩
  obtain ⟨p, hp⟩ := hread
  have hchain : (compile "[a-c]x\x7b2,3\x7d".toList).toOption.map (fun c => (c.dfa.chain, c.isMatch [])) =
      some ([⟨'a', 'c', by decide⟩, .single 'x'], false) := by decide +kernel
  obtain ⟨c, hc, -, hiff⟩ := chain_obeyed_iff hp
  rw [hc] at hchain
  obtain ⟨hchain, hempty⟩ := Prod.mk.inj (Option.some.inj hchain)
  exact ⟨c, hc, hchain, hiff.2 fun h => by rw [hempty] at h; cases h⟩

/-- `a?` matches the empty word, but its chain asks for an `a`. -/
theorem chain_optional : ∃ c, compile ['a', '?'] = .ok c ∧ c.isMatch [] = true ∧ ¬ Dfa.Obeys c.dfa.chain [] := by
  have hchain : ∃ c, compile ['a', '?'] = .ok c ∧ c.isMatch [] = true ∧ c.dfa.chain = [.single 'a'] :=
    ⟨_, by with_unfolding_all rfl, by with_unfolding_all rfl, by with_unfolding_all rfl⟩
  obtain ⟨c, hc, hempty, hchain⟩ := hchain
  exact ⟨c, hc, hempty, fun h => by rw [hchain] at h; cases Dfa.obeys_empty.1 h⟩

end PatternAutomata
