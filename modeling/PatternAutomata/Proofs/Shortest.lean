import PatternAutomata.Proofs.Compiled
import PatternAutomata.Proofs.Pattern.Length
/-!
# Shortest — the length of the shortest accepted word

A forced run that ends in an accepting state has read a word that is accepted, and every accepted word reads at least as
much.  So the depth of its last position, like the computation on the tree, tells the length of the shortest accepted
word (`compile_shortest`).
-/
namespace PatternAutomata
namespace Dfa

variable {d : Dfa} {i : Nat} {o : Offset} {last : Option Offset}

/-- A forced run into an accepting state reads an accepted word up to its last position. -/
theorem WellFormed.forcedFrom_accepts (hd : d.WellFormed) {limit : Nat} {visited : List Nat}
    (hlast : ∀ o, last = some o → o.depth + 1 = visited.length)
    (h : d.forcedFrom limit visited last i = (some o, .accepting)) :
    ∃ w, d.acceptsFrom i w = true ∧ visited.length + w.length = o.depth + 1 := by
  induction limit generalizing visited last i with
  | zero => cases h
  | succ limit ih =>
    unfold forcedFrom at h
    split at h
    · rename_i haccepting
      exact ⟨[], haccepting, (hlast o (congrArg Prod.fst h)).symm⟩
    · split at h
      · cases h
      · split at h
        · rename_i next range hdest _
          obtain ⟨w, hw, hlen⟩ := ih (fun _ ho => by cases ho; rfl) h
          obtain ⟨c, hc⟩ := (State.mem_destinations (hd.ordered i)).1 (hdest ▸ List.mem_singleton_self next)
          refine ⟨c :: w, by rw [acceptsFrom_cons, hc, Option.any_some, hw], ?_⟩
          rw [List.length_cons] at hlen ⊢
          omega
        · cases h
        · cases h
        · cases h

/-- **The forced position from the root is the last one of the shortest accepted words.** -/
theorem WellFormed.offset_shortest (hd : d.WellFormed) (h : d.offset = some o) :
    (∃ w, d.accepts w = true ∧ w.length = o.depth + 1) ∧ ∀ w, d.accepts w = true → o.depth + 1 ≤ w.length := by
  have hrun := forcedRun_of_offset h
  refine ⟨?_, fun w hw => ?_⟩
  · obtain ⟨w, hw, hlen⟩ := hd.forcedFrom_accepts (fun _ ho => by cases ho) hrun
    exact ⟨w, by rw [accepts_eq, hw], by simpa using hlen⟩
  · rw [accepts_eq] at hw
    exact (hd.forcedRun_restricts (by rw [hrun]) hw).1

end Dfa

variable {s : List Char} {p : Pattern}

/-- **The tree and the automaton agree on lengths**: where no step of its computation overflows there is a least length
of the tree, the shortest accepted word has it, and the forced position from the root, if there is one, is its last. -/
theorem compile_shortest (hp : Pattern.read s = .ok p) (hfits : p.MinLengthFits) : ∃ c k, compile s = .ok c ∧
    c.pattern = p ∧ p.minLength = .ok k ∧ (∃ w, c.isMatch w = true ∧ w.length = k.toNat) ∧
    (∀ w, c.isMatch w = true → k.toNat ≤ w.length) ∧ ∀ o, c.dfa.offset = some o → o.depth + 1 = k.toNat := by
  obtain ⟨c, hc, hpattern, hcanonical, hiff⟩ := exists_compile hp
  obtain ⟨k, hk⟩ := Pattern.exists_minLength_iff.2 hfits
  have hleast (w : Word) (hw : c.isMatch w = true) : p.leastLength ≤ w.length := Pattern.leastLength_le ((hiff w).1 hw)
  obtain ⟨v, hv, hvlen⟩ := Pattern.exists_matches (Pattern.filled_of_read hp)
  have hvmatch : c.isMatch v = true := (hiff v).2 (Pattern.accepted_of_matches hv)
  rw [← Pattern.leastLength_of_minLength hk] at hleast hvlen
  refine ⟨c, k, hc, hpattern, hk, ⟨v, hvmatch, hvlen⟩, hleast, fun o ho => ?_⟩
  obtain ⟨⟨w, hw, hwlen⟩, hshortest⟩ := hcanonical.wellFormed.offset_shortest ho
  exact Nat.le_antisymm (hvlen ▸ hshortest v hvmatch) (hwlen ▸ hleast w hw)

/-- The shortest matches of `[a-c]x{2,3}` have three characters, and the third is an `x` in all matches. -/
theorem compile_shortest_class : ∃ c, compile "[a-c]x\x7b2,3\x7d".toList = .ok c ∧
    c.pattern.minLength = .ok 3 ∧ (∃ w, c.isMatch w = true ∧ w.length = 3) ∧
    c.dfa.offset = some ⟨2, .single 'x'⟩ := by
  let q : Pattern := .seq (.oneOf [⟨'a', 'c', by decide⟩]) (.count (.word ['x']) ⟨2, 3, by decide, by decide⟩)
  have hp : Pattern.read "[a-c]x\x7b2,3\x7d".toList = .ok q := by with_unfolding_all rfl
  have hoffset : (compile "[a-c]x\x7b2,3\x7d".toList).toOption.map (fun c => c.dfa.offset) =
      some (some ⟨2, .single 'x'⟩) := by decide +kernel
  have hthree : q.minLength = .ok 3 := by decide
  obtain ⟨c, k, hc, hpattern, hk, ⟨w, hw, hlen⟩, -, -⟩ := compile_shortest hp (by decide)
  cases hthree.symm.trans hk
  rw [hc] at hoffset
  exact ⟨c, hc, hpattern ▸ hthree, ⟨w, hw, hlen⟩, Option.some.inj hoffset⟩

end PatternAutomata
