import PatternAutomata.Proofs.Checked.Compiled
import PatternAutomata.Proofs.Facts
import PatternAutomata.Proofs.Pattern.Longest
import PatternAutomata.Proofs.Preference
/-!
# Mirror — patterns and their facts, read backwards

Reversing a pattern reverses the words that it stands for and keeps its height and its lengths, except that a sum which
overflows may come to light from one end and not from the other (`reverse_mirrors`).  Its facts are those of the pattern
read backwards, with beginnings and ends exchanged, as long as nothing is repeated a bounded number of times
(`mirrors_ofPattern`): sizes and standings are those of the reversed sets, so on both sides the same sets are given up
and the same ones preferred.  Bounded repetitions are spelled out from one end only.  The set of all words is the same
from either end, though, since a row of copies may be extended at either (`cross_power`), and so this set is mirrored in
every pattern (`all_reverse`).
-/
namespace PatternAutomata

theorem exists_reverse_eq_iff {P : Word → Prop} {w : Word} : (∃ v, P v ∧ v.reverse = w) ↔ P w.reverse := by
  constructor
  · rintro ⟨v, hv, rfl⟩
    rwa [v.reverse_reverse]
  · intro h
    exact ⟨w.reverse, h, w.reverse_reverse⟩

namespace Pattern

/-! ## The tree -/

/-- The least length is computed from the same numbers, if only in another order. -/
theorem minLength_reverse : ∀ {p : Pattern} {k : UInt64}, p.minLength = .ok k → p.reverse.minLength = .ok k
  | word w, _, h => by rwa [reverse, minLength, w.length_reverse]
  | seq _ _, _, h => by
    obtain ⟨m, hm, h⟩ := bind_eq_ok.1 h
    obtain ⟨n, hn, h⟩ := bind_eq_ok.1 h
    rw [Nat.add_comm] at h
    exact bind_eq_ok.2 ⟨n, minLength_reverse hn, bind_eq_ok.2 ⟨m, minLength_reverse hm, h⟩⟩
  | alt _ _, _, h => by
    obtain ⟨m, hm, h⟩ := bind_eq_ok.1 h
    obtain ⟨n, hn, h⟩ := bind_eq_ok.1 h
    exact bind_eq_ok.2 ⟨m, minLength_reverse hm, bind_eq_ok.2 ⟨n, minLength_reverse hn, h⟩⟩
  | star _, _, h => h
  | count p _, _, h => by
    obtain ⟨m, hm, h⟩ := bind_eq_ok.1 h
    exact bind_eq_ok.2 ⟨m, minLength_reverse (p := p) hm, h⟩
  | oneOf _, _, h => h

/-- So is a greatest length that there is; where there is none, the order decides what is looked at. -/
theorem maxLength_reverse : ∀ {p : Pattern} {k : UInt64}, p.maxLength = .ok (some k) →
    p.reverse.maxLength = .ok (some k)
  | word w, _, h => by rwa [reverse, maxLength, w.length_reverse]
  | seq _ _, _, h => by
    obtain ⟨m, n, hm, hn, h⟩ := both_eq_some.1 h
    rw [Nat.add_comm] at h
    exact both_eq_some.2 ⟨n, m, maxLength_reverse hn, maxLength_reverse hm, h⟩
  | alt _ _, _, h => by
    obtain ⟨m, n, hm, hn, h⟩ := both_eq_some.1 h
    exact both_eq_some.2 ⟨m, n, maxLength_reverse hm, maxLength_reverse hn, h⟩
  | count p _, _, h => by
    obtain ⟨m, hm, h⟩ := maxLength_count_eq_some.1 h
    exact maxLength_count_eq_some.2 ⟨m, maxLength_reverse (p := p) hm, h⟩
  | oneOf _, _, h => h

theorem minLength_reverse_eq_ok {p : Pattern} {k : UInt64} : p.reverse.minLength = .ok k ↔ p.minLength = .ok k :=
  ⟨fun h => p.reverse_reverse ▸ minLength_reverse h, minLength_reverse⟩

theorem maxLength_reverse_eq_some {p : Pattern} {k : UInt64} :
    p.reverse.maxLength = .ok (some k) ↔ p.maxLength = .ok (some k) :=
  ⟨fun h => p.reverse_reverse ▸ maxLength_reverse h, maxLength_reverse⟩

/-- The greatest length is the same from either end exactly when it is at fault from both or from neither. -/
theorem maxLength_reverse_eq_iff {p : Pattern} :
    p.reverse.maxLength = p.maxLength ↔ (p.reverse.SumsFit ↔ p.SumsFit) := by
  constructor
  · intro h
    rw [← exists_maxLength_iff, ← exists_maxLength_iff, h]
  · intro hiff
    cases hp : p.maxLength with
    | error f =>
      obtain ⟨rfl, hsums⟩ := maxLength_eq_error.1 hp
      exact maxLength_eq_error.2 ⟨rfl, mt hiff.1 hsums⟩
    | ok o =>
      obtain ⟨o', ho'⟩ := exists_maxLength_iff.2 (hiff.2 (exists_maxLength_iff.1 ⟨o, hp⟩))
      rw [ho']
      cases o with
      | some k => exact ho'.symm.trans (maxLength_reverse hp)
      | none =>
        cases o' with
        | none => rfl
        | some k => exact (maxLength_reverse_eq_some.1 ho').symm.trans hp

theorem height_reverse : ∀ p : Pattern, p.reverse.height = p.height
  | word _ => rfl
  | seq head tail => by rw [reverse, height, tail.height_reverse, head.height_reverse, Nat.max_comm, height]
  | alt left right => by rw [reverse, height, left.height_reverse, right.height_reverse, height]
  | star p => congrArg (1 + ·) p.height_reverse
  | count p _ => congrArg (1 + ·) p.height_reverse
  | oneOf _ => rfl

/-- **The reversed pattern** stands for the reversals of the words of the pattern and for no others, it has the same
height, and reversed again it is the pattern; no repetition's counts are out of order in it.  A least length that is
computed for one of them is computed for the other, and so is a greatest length that there is.  Where there is none, one
may be at fault and the other not: what is computed is the same exactly when the sums of both fit or of neither. -/
theorem reverse_mirrors (p : Pattern) : Checked.reverse p = .ok p.reverse ∧
    (∀ w, p.reverse.Matches w ↔ ∃ v, p.Matches v ∧ v.reverse = w) ∧ p.reverse.reverse = p ∧
    p.reverse.height = p.height ∧ (∀ k, p.reverse.minLength = .ok k ↔ p.minLength = .ok k) ∧
    (∀ k, p.reverse.maxLength = .ok (some k) ↔ p.maxLength = .ok (some k)) ∧
    (p.reverse.maxLength = p.maxLength ↔ (p.reverse.SumsFit ↔ p.SumsFit)) := by
  refine ⟨Checked.reverse_eq_ok p, fun w => ?_, p.reverse_reverse, p.height_reverse, fun _ => minLength_reverse_eq_ok,
    fun _ => maxLength_reverse_eq_some, maxLength_reverse_eq_iff⟩
  rw [matches_reverse, exists_reverse_eq_iff]

/-- Behind a repetition two runs that are too long together are not looked at, before it they are. -/
theorem maxLength_reverse_runs :
    let p := seq (star (word ['a'])) (seq runs runs)
    p.maxLength = .ok none ∧ p.reverse.maxLength = .error .sumTooLarge ∧ p.minLength = .ok 2 ∧
      p.reverse.minLength = .ok 2 := by
  decide

/-- Nothing is repeated a bounded number of times. -/
def Uncounted : Pattern → Prop
  | word _ => True
  | oneOf _ => True
  | seq head tail => head.Uncounted ∧ tail.Uncounted
  | alt left right => left.Uncounted ∧ right.Uncounted
  | star p => p.Uncounted
  | count _ _ => False

end Pattern

namespace WordSet

variable {s t : WordSet} {w : Word}

/-! ## Sets of words, read backwards -/

def reverse (s : WordSet) : WordSet := ofList (s.words.map List.reverse)

@[simp] theorem mem_reverse : w ∈ s.reverse ↔ w.reverse ∈ s := by
  rw [reverse, mem_ofList, List.mem_map, exists_reverse_eq_iff, mem_def]

theorem mem_product_iff_followed : w ∈ s.product t ↔ Followed (· ∈ s) (· ∈ t) w := by
  rw [mem_product]
  constructor
  · rintro ⟨u, hu, v, hv, huv⟩
    exact ⟨u, v, huv, hu, hv⟩
  · rintro ⟨u, v, huv, hu, hv⟩
    exact ⟨u, hu, v, hv, huv⟩

theorem reverse_product (s t : WordSet) : (s.product t).reverse = t.reverse.product s.reverse := by
  ext w
  have hmem (r : WordSet) (u : Word) : u ∈ r.reverse ↔ u.reverse ∈ r := mem_reverse
  rw [mem_reverse, mem_product_iff_followed, mem_product_iff_followed, followed_reverse (hmem t) (hmem s)]

theorem reverse_union (s t : WordSet) : (s.union t).reverse = s.reverse.union t.reverse := by
  ext w
  simp

theorem perm_words_reverse (s : WordSet) : s.reverse.words.Perm (s.words.map List.reverse) :=
  (List.perm_ext_iff_of_nodup s.reverse.ascending.nodup (s.ascending.nodup.map List.reverse_injective)).2
    fun _ => mem_ofList

theorem perm_lengths_reverse (s : WordSet) :
    (s.reverse.words.map List.length).Perm (s.words.map List.length) := by
  have hlengths : (s.words.map List.reverse).map List.length = s.words.map List.length := by simp
  exact hlengths ▸ s.perm_words_reverse.map List.length

theorem size_reverse (s : WordSet) : s.reverse.size = s.size := by
  have := s.perm_words_reverse.length_eq
  rwa [List.length_map] at this

theorem words_reverse_eq_nil_iff : s.reverse.words = [] ↔ s.words = [] := by
  rw [← List.length_eq_zero_iff, ← List.length_eq_zero_iff]
  exact iff_of_eq (congrArg (· = 0) s.size_reverse)

theorem total_reverse (s : WordSet) : s.reverse.total = s.total := by
  rw [total, total, List.length_flatten, List.length_flatten, s.perm_lengths_reverse.sum_nat]

theorem shortest_reverse (s : WordSet) : s.reverse.shortest = s.shortest := by
  have hmin (n : Nat) : (s.reverse.words.map List.length).min? = some n ↔ (s.words.map List.length).min? = some n := by
    simp only [List.min?_eq_some_iff, s.perm_lengths_reverse.mem_iff]
  rw [shortest, shortest, Option.ext hmin]

theorem merit_reverse (s : WordSet) : s.reverse.merit = s.merit := by
  rw [merit, merit, shortest_reverse, size_reverse, total_reverse]

end WordSet

namespace Facts

open WordSet (reverse)

variable {f f' g g' : Facts} {a b : Option WordSet} {s t : WordSet} {k : Nat} {w : Word}

/-! ## Combining sets, read backwards -/

theorem standing_reverse (a : Option WordSet) : standing (a.map reverse) = standing a := by
  cases a with
  | none => rfl
  | some s =>
    change standing (some s.reverse) = standing (some s)
    rw [standing, standing, WordSet.merit_reverse]
    simp only [WordSet.words_reverse_eq_nil_iff]

theorem best_reverse (a b : Option WordSet) : best (a.map reverse) (b.map reverse) = (best a b).map reverse := by
  rw [best_eq_ite, best_eq_ite, standing_reverse, standing_reverse, apply_ite (Option.map reverse)]

theorem cross_some (s t : WordSet) :
    cross (some s) (some t) = if s.size * t.size ≤ maxWords then some (s.product t) else none := rfl

theorem cross_none_right (a : Option WordSet) : cross a none = none := by cases a <;> rfl

theorem either_some (s t : WordSet) :
    either (some s) (some t) = if (s.union t).size ≤ maxWords then some (s.union t) else none := rfl

theorem cross_reverse (a b : Option WordSet) : cross (b.map reverse) (a.map reverse) = (cross a b).map reverse := by
  cases a with
  | none => exact cross_none_right _
  | some s =>
    cases b with
    | none => rfl
    | some t =>
      rw [Option.map_some, Option.map_some, cross_some, cross_some, t.size_reverse, s.size_reverse, Nat.mul_comm,
        apply_ite (Option.map reverse), Option.map_some, Option.map_none, WordSet.reverse_product]

theorem either_reverse (a b : Option WordSet) : either (a.map reverse) (b.map reverse) = (either a b).map reverse := by
  cases a with
  | none => rfl
  | some s =>
    cases b with
    | none => rfl
    | some t =>
      rw [Option.map_some, Option.map_some, either_some, either_some, ← WordSet.reverse_union, WordSet.size_reverse,
        apply_ite (Option.map reverse), Option.map_some, Option.map_none]

/-! ## All words, read backwards -/

/-- The words of a row of copies, as far as they are known, are what the words of a copy make in a row. -/
theorem mem_power_iff {c : WordSet} (hc : f.all = some c) : ∀ {k : Nat} {s : WordSet}, (f.power k).all = some s →
    ∀ w, w ∈ s ↔ Repeats (· ∈ c) k w
  | 0, _, hs, w => by
    cases hs
    exact WordSet.mem_emptyWord
  | k + 1, s, hs, w => by
    obtain ⟨r, _, hr, hc', rfl⟩ := cross_eq_some hs
    cases hc.symm.trans hc'
    rw [WordSet.mem_product_iff_followed, repeats_succ_right]
    exact followed_congr (mem_power_iff hc hr) fun _ => Iff.rfl

/-- **A row of copies may be extended at either end.** -/
theorem cross_power (f : Facts) (k : Nat) : cross f.all (f.power k).all = cross (f.power k).all f.all := by
  cases hc : f.all with
  | none => exact (cross_none_right _).symm
  | some c =>
    cases hs : (f.power k).all with
    | none => rfl
    | some s =>
      have hrow (w : Word) : w ∈ s ↔ Repeats (· ∈ c) k w := mem_power_iff hc hs w
      have hproduct : c.product s = s.product c := by
        ext w
        rw [WordSet.mem_product_iff_followed, WordSet.mem_product_iff_followed,
          followed_congr (fun _ => Iff.rfl) hrow, followed_congr hrow fun _ => Iff.rfl]
        exact repeats_succ_right
      rw [cross_some, cross_some, hproduct, Nat.mul_comm]

theorem power_reverse (h : g.all = f.all.map reverse) : ∀ k, (g.power k).all = (f.power k).all.map reverse
  | 0 => rfl
  | k + 1 =>
    calc cross (g.power k).all g.all = cross ((f.power k).all.map reverse) (f.all.map reverse) := by
          rw [power_reverse h k, h]
      _ = (cross f.all (f.power k).all).map reverse := cross_reverse _ _
      _ = (cross (f.power k).all f.all).map reverse := by rw [cross_power]

theorem powers_reverse (h : g.all = f.all.map reverse) (least : Nat) :
    ∀ more, (g.powers least more).all = (f.powers least more).all.map reverse
  | 0 => power_reverse h least
  | more + 1 => (congrArg₂ either (powers_reverse h least more) (power_reverse h _)).trans (either_reverse _ _)

theorem repeated_reverse (h : g.all = f.all.map reverse) (times : Bounds) :
    (g.repeated times).all = (f.repeated times).all.map reverse := by
  rw [repeated, repeated]
  split
  · exact powers_reverse h _ _
  · split <;> rfl

theorem reverse_ofList_singleton (w : Word) : reverse (.ofList [w]) = .ofList [w.reverse] := by
  ext v
  simp [List.reverse_eq_iff]

theorem reverse_letters (cs : List Char) : reverse (.ofList (cs.map ([·]))) = .ofList (cs.map ([·])) := by
  ext w
  rw [WordSet.mem_reverse, WordSet.mem_ofList, WordSet.mem_ofList, List.mem_map, List.mem_map]
  refine exists_congr fun c => and_congr_right fun _ => ?_
  rw [← List.reverse_eq_iff, List.reverse_singleton]

/-- The set of all words is there for the reversed pattern exactly when it is for the pattern. -/
theorem all_reverse : ∀ p : Pattern, (ofPattern p.reverse).all = (ofPattern p).all.map reverse
  | .word w => congrArg some (reverse_ofList_singleton w).symm
  | .oneOf intervals => by
    rw [Pattern.reverse, ofPattern, ofClass]
    split
    · exact congrArg some (reverse_letters _).symm
    · rfl
  | .seq head tail => (congrArg₂ cross (all_reverse tail) (all_reverse head)).trans (cross_reverse _ _)
  | .alt left right => (congrArg₂ either (all_reverse left) (all_reverse right)).trans (either_reverse _ _)
  | .star _ => rfl
  | .count p times => repeated_reverse (all_reverse p) times

/-! ## Beginnings and ends, exchanged -/

/-- `g` says of the words read backwards what `f` says of the words, as far as it does not speak of their middle. -/
structure Mirrors (f g : Facts) : Prop where
  prefixes : g.prefixes = f.suffixes.map reverse
  suffixes : g.suffixes = f.prefixes.map reverse
  all : g.all = f.all.map reverse

theorem mirrors_exact (s : WordSet) : (exact s).Mirrors (exact s.reverse) := ⟨rfl, rfl, rfl⟩

theorem mirrors_absent : absent.Mirrors absent := ⟨rfl, rfl, rfl⟩

theorem Mirrors.concatenate (hf : f.Mirrors f') (hg : g.Mirrors g') :
    (f.concatenate g).Mirrors (g'.concatenate f') where
  prefixes :=
    calc best g'.prefixes (cross g'.all f'.prefixes)
        = best (g.suffixes.map reverse) ((cross f.suffixes g.all).map reverse) := by
          rw [hg.prefixes, hg.all, hf.prefixes, cross_reverse]
      _ = (best g.suffixes (cross f.suffixes g.all)).map reverse := best_reverse _ _
  suffixes :=
    calc best f'.suffixes (cross g'.suffixes f'.all)
        = best (f.prefixes.map reverse) ((cross f.all g.prefixes).map reverse) := by
          rw [hf.suffixes, hg.suffixes, hf.all, cross_reverse]
      _ = (best f.prefixes (cross f.all g.prefixes)).map reverse := best_reverse _ _
  all := (congrArg₂ cross hg.all hf.all).trans (cross_reverse _ _)

theorem Mirrors.union (hf : f.Mirrors f') (hg : g.Mirrors g') : (f.union g).Mirrors (f'.union g') where
  prefixes := (congrArg₂ either hf.prefixes hg.prefixes).trans (either_reverse _ _)
  suffixes := (congrArg₂ either hf.suffixes hg.suffixes).trans (either_reverse _ _)
  all := (congrArg₂ either hf.all hg.all).trans (either_reverse _ _)

theorem mirrors_starred (f g : Facts) : f.starred.Mirrors g.starred := ⟨rfl, rfl, rfl⟩

theorem mirrors_ofPattern : ∀ {p : Pattern}, p.Uncounted → (ofPattern p).Mirrors (ofPattern p.reverse)
  | .word w, _ => by
    rw [Pattern.reverse, ofPattern, ofPattern, ← reverse_ofList_singleton]
    exact mirrors_exact _
  | .oneOf intervals, _ => by
    rw [Pattern.reverse, ofPattern, ofClass]
    split
    · have := mirrors_exact (.ofList ((intervals.flatMap Interval.chars).map ([·])))
      rwa [reverse_letters] at this
    · exact mirrors_absent
  | .seq _ _, ⟨hhead, htail⟩ => (mirrors_ofPattern hhead).concatenate (mirrors_ofPattern htail)
  | .alt _ _, ⟨hleft, hright⟩ => (mirrors_ofPattern hleft).union (mirrors_ofPattern hright)
  | .star p, _ => mirrors_starred (ofPattern p) (ofPattern p.reverse)

/-- **The facts of the reversed pattern** are the facts read backwards.  The set of all words is there on both sides or
on neither; where nothing is repeated a bounded number of times, so are the beginnings of the one and the ends of the
other, whichever sets are given up and whichever preferred on the way. -/
theorem ofPattern_reverse (p : Pattern) : (ofPattern p.reverse).all = (ofPattern p).all.map reverse ∧
    (p.Uncounted → (ofPattern p.reverse).prefixes = (ofPattern p).suffixes.map reverse ∧
      (ofPattern p.reverse).suffixes = (ofPattern p).prefixes.map reverse) := by
  refine ⟨all_reverse p, fun hp => ?_⟩
  have hmirror := mirrors_ofPattern hp
  exact ⟨hmirror.prefixes, hmirror.suffixes⟩

/-- A bounded repetition is spelled out from the front: of three letters in a row, out of five, there are too many to be
kept, and what is left of them are the first two at one end and the last one at the other. -/
example :
    let p : Pattern := .count (.oneOf [⟨'a', 'e', by decide⟩]) ⟨3, 3, by decide, by decide⟩
    p.reverse = p ∧ (ofPattern p).prefixes.map (·.shortest) = some 2 ∧
      (ofPattern p).suffixes.map (·.shortest) = some 1 := by
  decide +kernel

/-- Two digits are too many pairs, so of the ends of `(ab|c)d*[0-9][0-9]` only the last digit is kept. -/
theorem ofPattern_reverse_digits :
    let digits := ⟨'0', '9', by decide⟩
    let p : Pattern :=
      .seq (.seq (.alt (.word ['a', 'b']) (.word ['c'])) (.star (.word ['d'])))
        (.seq (.oneOf [digits]) (.oneOf [digits]))
    let last : WordSet := .ofList (digits.chars.map ([·]))
    p.Uncounted ∧ (ofPattern p).suffixes = some last ∧ (ofPattern p.reverse).prefixes = some last.reverse ∧
      (ofPattern p.reverse).suffixes = some (.ofList [['b', 'a'], ['c']]) := by
  intro digits p last
  have hp : p.Uncounted := ⟨⟨⟨trivial, trivial⟩, trivial⟩, trivial, trivial⟩
  have hsuffixes : (ofPattern p).suffixes = some last := by decide +kernel
  have hprefixes : (ofPattern p).prefixes = some (.ofList [['a', 'b'], ['c']]) := by decide +kernel
  obtain ⟨hends, hbeginnings⟩ := (ofPattern_reverse p).2 hp
  rw [hsuffixes] at hends
  rw [hprefixes] at hbeginnings
  exact ⟨hp, hsuffixes, hends, hbeginnings⟩

end Facts
end PatternAutomata
