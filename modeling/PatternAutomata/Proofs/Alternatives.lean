import PatternAutomata.Facts
import PatternAutomata.Proofs.Grouping
/-!
# Alternatives — the facts of a choice

The facts of alternatives are united two by two, as the tree groups them, and each union gives up the sets that grow too
large.  A union of some sets is no larger than the union of all, so a set that is given up early would have been given
up in the end.  What is left is therefore told by the alternatives alone: the union of their sets, if each has one and
the union is small enough (`join_either_eq_some_iff`).  Neither their order nor their grouping has a part in it
(`union_of_any_grouping`).
-/
namespace PatternAutomata

namespace WordSet

theorem size_le_of_subset {s t : WordSet} (h : ∀ w ∈ s, w ∈ t) : s.size ≤ t.size :=
  s.ascending.nodup.length_le_of_subset h

/-- All the sets are there, and `s` has their words. -/
structure Unites (sets : List (Option WordSet)) (s : WordSet) : Prop where
  present : ∀ a ∈ sets, a ≠ none
  mem_iff : ∀ w, w ∈ s ↔ ∃ t, some t ∈ sets ∧ w ∈ t

variable {as bs : List (Option WordSet)} {a : Option WordSet} {s t : WordSet}

theorem exists_unites (h : ∀ a ∈ as, a ≠ none) : ∃ s, Unites as s :=
  ⟨.ofList ((as.filterMap id).flatMap words), h, fun w => by rw [mem_ofList]; simp [mem_def]⟩

theorem Unites.unique (hs : Unites as s) (ht : Unites as t) : s = t :=
  ext fun w => (hs.mem_iff w).trans (ht.mem_iff w).symm

theorem Unites.perm (hs : Unites as s) (h : as.Perm bs) : Unites bs s where
  present a ha := hs.present a (h.mem_iff.2 ha)
  mem_iff w := by simp only [hs.mem_iff, h.mem_iff]

theorem unites_congr (h : as.Perm bs) : Unites as s ↔ Unites bs s := ⟨fun hs => hs.perm h, fun hs => hs.perm h.symm⟩

theorem unites_singleton : Unites [a] s ↔ a = some s := by
  have hself (t : WordSet) : Unites [some t] t :=
    ⟨fun b hb => List.mem_singleton.1 hb ▸ Option.some_ne_none t, fun w => by simp⟩
  constructor
  · intro h
    obtain ⟨t, rfl⟩ := Option.ne_none_iff_exists'.1 (h.present a List.mem_cons_self)
    exact congrArg some ((hself t).unique h)
  · rintro rfl
    exact hself s

theorem Unites.append (hs : Unites as s) (ht : Unites bs t) : Unites (as ++ bs) (s.union t) where
  present a ha := (List.mem_append.1 ha).elim (hs.present a) (ht.present a)
  mem_iff w := by simp only [mem_union, hs.mem_iff, ht.mem_iff, List.mem_append, or_and_right, exists_or]

end WordSet

namespace Facts

open WordSet (Unites)

variable {a b : Option WordSet} {s : WordSet}

theorem either_eq_some_iff : either a b = some s ↔
    ∃ u v, a = some u ∧ b = some v ∧ s = u.union v ∧ s.size ≤ maxWords := by
  constructor
  · intro h
    unfold either at h
    split at h
    · split at h
      · rename_i hsize
        cases h
        exact ⟨_, _, rfl, rfl, rfl, hsize⟩
      · cases h
    · cases h
  · rintro ⟨u, v, rfl, rfl, rfl, hsize⟩
    exact if_pos hsize

/-- **What is left of some sets united two by two**: their union, if all are there and it is small enough. -/
theorem join_either_eq_some_iff (g : Grouping (Option WordSet)) : g.join either = some s ↔
    Unites g.leaves s ∧ (1 < g.leaves.length → s.size ≤ maxWords) := by
  induction g generalizing s with
  | one a =>
    rw [Grouping.join, Grouping.leaves, WordSet.unites_singleton, List.length_singleton]
    exact ⟨fun h => ⟨h, fun hlt => absurd hlt (Nat.lt_irrefl 1)⟩, And.left⟩
  | pair left right ihl ihr =>
    have hlen : 1 < (left.pair right).leaves.length := by
      have := List.length_pos_iff.2 left.leaves_ne_nil
      have := List.length_pos_iff.2 right.leaves_ne_nil
      rw [Grouping.leaves, List.length_append]
      omega
    rw [Grouping.join, either_eq_some_iff]
    constructor
    · rintro ⟨u, v, hu, hv, rfl, hsize⟩
      exact ⟨(ihl.1 hu).1.append (ihr.1 hv).1, fun _ => hsize⟩
    · rintro ⟨hs, hsize⟩
      obtain ⟨u, hu⟩ := WordSet.exists_unites fun a ha => hs.present a (List.mem_append_left _ ha)
      obtain ⟨v, hv⟩ := WordSet.exists_unites fun a ha => hs.present a (List.mem_append_right _ ha)
      obtain rfl : s = u.union v := hs.unique (hu.append hv)
      -- neither side has been given up, since the union of all is no smaller
      have hul : u.size ≤ maxWords :=
        Nat.le_trans (WordSet.size_le_of_subset fun _ hw => WordSet.mem_union.2 (.inl hw)) (hsize hlen)
      have hvl : v.size ≤ maxWords :=
        Nat.le_trans (WordSet.size_le_of_subset fun _ hw => WordSet.mem_union.2 (.inr hw)) (hsize hlen)
      exact ⟨u, v, ihl.2 ⟨hu, fun _ => hul⟩, ihr.2 ⟨hv, fun _ => hvl⟩, rfl, hsize hlen⟩

theorem join_either_eq_of_perm {g h : Grouping (Option WordSet)} (hperm : g.leaves.Perm h.leaves) :
    g.join either = h.join either :=
  Option.ext fun s => by
    rw [join_either_eq_some_iff, join_either_eq_some_iff, WordSet.unites_congr hperm, hperm.length_eq]

/-- The four sets of facts. -/
def fields : List (Facts → Option WordSet) := [prefixes, suffixes, factors, all]

theorem field_union {field : Facts → Option WordSet} (hfield : field ∈ fields) (f g : Facts) :
    field (f.union g) = either (field f) (field g) := by
  simp only [fields, List.mem_cons, List.not_mem_nil, or_false] at hfield
  rcases hfield with rfl | rfl | rfl | rfl <;> rfl

theorem ext_fields {f g : Facts} (h : ∀ field ∈ fields, field f = field g) : f = g := by
  cases f
  cases g
  simpa [fields] using h

theorem join_union_eq_of_perm {g h : Grouping Facts} (hperm : g.leaves.Perm h.leaves) : g.join union = h.join union :=
  ext_fields fun field hfield => by
    rw [Grouping.map_join (field_union hfield), Grouping.map_join (field_union hfield)]
    refine join_either_eq_of_perm ?_
    rw [Grouping.leaves_map, Grouping.leaves_map]
    exact hperm.map field

/-- **The facts of alternatives do not depend on their order and grouping.**  Each of the four sets is the union of those
of the alternatives, if they all have one and it is small enough, whichever sets are given up on the way.  So it makes
no difference how facts are joined, nor how patterns are joined to an alternation, by halves or otherwise. -/
theorem union_of_any_grouping :
    (∀ field ∈ fields, ∀ g : Grouping Facts, 1 < g.leaves.length → ∀ s : WordSet,
      field (g.join union) = some s ↔ Unites (g.leaves.map field) s ∧ s.size ≤ maxWords) ∧
    (∀ (fs : List Facts) (g h : Grouping Facts), g.leaves.Perm fs → h.leaves.Perm fs → g.join union = h.join union) ∧
    (∀ (ps : List Pattern) (g h : Grouping Pattern), g.leaves.Perm ps → h.leaves.Perm ps →
      ofPattern (g.join .alt) = ofPattern (h.join .alt)) ∧
    ∀ (ps qs : List Pattern) (g : Grouping Pattern), g.leaves.Perm ps → qs.Perm ps →
      ∃ p, Pattern.balanced .alt qs = some p ∧ ofPattern p = ofPattern (g.join .alt) := by
  have hpatterns (ps : List Pattern) (g h : Grouping Pattern) (hg : g.leaves.Perm ps) (hh : h.leaves.Perm ps) :
      ofPattern (g.join .alt) = ofPattern (h.join .alt) := by
    have halt (p q : Pattern) : ofPattern (.alt p q) = (ofPattern p).union (ofPattern q) := rfl
    rw [Grouping.map_join halt, Grouping.map_join halt]
    refine join_union_eq_of_perm ?_
    rw [Grouping.leaves_map, Grouping.leaves_map]
    exact (hg.trans hh.symm).map ofPattern
  refine ⟨fun field hfield g hlen s => ?_, fun fs g h hg hh => join_union_eq_of_perm (hg.trans hh.symm), hpatterns,
    fun ps qs g hg hqs => ?_⟩
  · rw [Grouping.map_join (field_union hfield), join_either_eq_some_iff, Grouping.leaves_map, List.length_map]
    exact and_congr_right fun _ => ⟨fun h => h hlen, fun h _ => h⟩
  · have hne : qs ≠ [] := fun hnil => g.leaves_ne_nil (hg.trans (hnil ▸ hqs.symm)).eq_nil
    obtain ⟨p, hp⟩ := Option.isSome_iff_exists.1 (Pattern.balanced_isSome .alt hne)
    refine ⟨p, hp, ?_⟩
    obtain ⟨h, rfl, rfl⟩ := Grouping.exists_of_balanced hp
    exact hpatterns ps h g hqs hg

/-- Three alphabets and one of them again: taken one by one, their letters are too many from the third on; by twos, they
are too many in the end only. -/
theorem union_of_any_grouping_alphabets :
    let letters (i : Interval) : Facts := exact (.ofList (i.chars.map ([·])))
    let lower := letters ⟨'a', 'z', by decide⟩
    let upper := letters ⟨'A', 'Z', by decide⟩
    let greek := letters ⟨'\u03B1', '\u03C9', by decide⟩
    let row : Grouping Facts := .pair (.pair (.pair (.one lower) (.one upper)) (.one greek)) (.one lower)
    let twos : Grouping Facts := .pair (.pair (.one greek) (.one upper)) (.pair (.one lower) (.one lower))
    row.join union = twos.join union ∧ ((lower.union upper).union greek).all = none ∧
      (lower.union lower).all.isSome = true ∧
      (∃ s, (greek.union upper).all = some s ∧ Unites [greek.all, upper.all] s) ∧
      ∃ p, Pattern.balanced .alt [.word ['e'], .word ['c', 'd'], .word ['a', 'b']] = some p ∧
        ofPattern p = ofPattern (.alt (.alt (.word ['a', 'b']) (.word ['c', 'd'])) (.word ['e'])) := by
  intro letters lower upper greek row twos
  have hperm : twos.leaves.Perm row.leaves := by decide +kernel
  have hsome : (greek.union upper).all.isSome = true := by decide +kernel
  obtain ⟨s, hs⟩ := Option.isSome_iff_exists.1 hsome
  have hunites := union_of_any_grouping.1 all (by simp [fields]) (.pair (.one greek) (.one upper)) (Nat.lt_add_one 1) s
  let words : List Pattern := [.word ['a', 'b'], .word ['c', 'd'], .word ['e']]
  let g : Grouping Pattern := .pair (.pair (.one (.word ['a', 'b'])) (.one (.word ['c', 'd']))) (.one (.word ['e']))
  exact ⟨union_of_any_grouping.2.1 row.leaves row twos (List.Perm.refl _) hperm, by decide +kernel, by decide +kernel,
    ⟨s, hs, (hunites.1 hs).1⟩,
    union_of_any_grouping.2.2.2 words words.reverse g (List.Perm.refl _) (List.reverse_perm words)⟩

end Facts
end PatternAutomata
