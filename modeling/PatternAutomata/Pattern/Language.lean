import PatternAutomata.Pattern
/-!
# Language — the words that match a pattern

What a pattern means, said without automata: `Matches p w` holds when `w` can be cut up as the tree of `p` says.
Reversing a pattern reverses its words (`matches_reverse`).
-/
namespace PatternAutomata

/-- A word of `L` followed by one of `M`. -/
def Followed (L M : Word → Prop) (w : Word) : Prop := ∃ u v, u ++ v = w ∧ L u ∧ M v

section

variable {L L' M M' N : Word → Prop} {k : Nat} {u v w : Word}

theorem followed_congr (hL : ∀ w, L w ↔ L' w) (hM : ∀ w, M w ↔ M' w) : Followed L M w ↔ Followed L' M' w :=
  exists_congr fun u => exists_congr fun v => and_congr_right fun _ => and_congr (hL u) (hM v)

theorem followed_assoc : Followed (Followed L M) N w ↔ Followed L (Followed M N) w := by
  constructor
  · rintro ⟨_, v, rfl, ⟨u₁, u₂, rfl, h₁, h₂⟩, hv⟩
    exact ⟨u₁, u₂ ++ v, (u₁.append_assoc u₂ v).symm, h₁, u₂, v, rfl, h₂, hv⟩
  · rintro ⟨u, _, rfl, hu, v₁, v₂, rfl, h₁, h₂⟩
    exact ⟨u ++ v₁, v₂, u.append_assoc v₁ v₂, ⟨u, v₁, rfl, hu, h₁⟩, h₂⟩

theorem followed_nil : Followed L (· = []) w ↔ L w := by
  constructor
  · rintro ⟨u, _, rfl, hu, rfl⟩
    rwa [List.append_nil]
  · intro h
    exact ⟨w, [], w.append_nil, h, rfl⟩

theorem nil_followed : Followed (· = []) L w ↔ L w := by
  constructor
  · rintro ⟨_, v, rfl, rfl, hv⟩
    exact hv
  · intro h
    exact ⟨[], w, rfl, rfl, h⟩

theorem followed_word : Followed (· = u) (· = v) w ↔ w = u ++ v := by
  constructor
  · rintro ⟨_, _, rfl, rfl, rfl⟩
    rfl
  · rintro rfl
    exact ⟨u, v, rfl, rfl, rfl⟩

theorem followed_reverse (hL : ∀ w, L w ↔ L' w.reverse) (hM : ∀ w, M w ↔ M' w.reverse) :
    Followed L M w ↔ Followed M' L' w.reverse := by
  constructor
  · rintro ⟨u, v, rfl, hu, hv⟩
    exact ⟨v.reverse, u.reverse, List.reverse_append.symm, (hM v).1 hv, (hL u).1 hu⟩
  · rintro ⟨u, v, huv, hu, hv⟩
    refine ⟨v.reverse, u.reverse, ?_, (hL _).2 ?_, (hM _).2 ?_⟩
    · rw [← List.reverse_append, huv, List.reverse_reverse]
    · rwa [List.reverse_reverse]
    · rwa [List.reverse_reverse]

/-- `w` is made of `k` words of `L`, one after the other. -/
def Repeats (L : Word → Prop) : Nat → Word → Prop
  | 0, w => w = []
  | k + 1, w => ∃ u v, u ++ v = w ∧ L u ∧ Repeats L k v

/-- Words may be added at the end as well as at the beginning. -/
theorem repeats_succ_right : Repeats L (k + 1) w ↔ Followed (Repeats L k) L w := by
  induction k generalizing w with
  | zero => exact followed_nil.trans nil_followed.symm
  | succ k ih => exact (followed_congr (fun _ => Iff.rfl) fun _ => ih).trans followed_assoc.symm

/-- Repetition and reversal can be exchanged. -/
theorem repeats_reverse (h : ∀ w, L w ↔ M w.reverse) : Repeats L k w ↔ Repeats M k w.reverse := by
  induction k generalizing w with
  | zero => exact List.reverse_eq_nil_iff.symm
  | succ k ih => exact repeats_succ_right.trans (followed_reverse (fun _ => ih) h)

end

namespace Pattern

/-- Whether `w` is one of the words that the pattern stands for. -/
def Matches : Pattern → Word → Prop
  | word v, w => w = v
  | seq head tail, w => ∃ u v, u ++ v = w ∧ head.Matches u ∧ tail.Matches v
  | alt left right, w => left.Matches w ∨ right.Matches w
  | star p, w => ∃ k, Repeats p.Matches k w
  | count p times, w => ∃ k, times.least ≤ k ∧ k ≤ times.greatest ∧ Repeats p.Matches k w
  | oneOf intervals, w => ∃ i ∈ intervals, ∃ c, c ∈ i ∧ w = [c]

/-- **The reversed pattern stands for the reversed words.** -/
theorem matches_reverse : ∀ {p : Pattern} {w : Word}, p.reverse.Matches w ↔ p.Matches w.reverse
  | word v, w => List.reverse_eq_iff.symm
  | seq _ _, _ => followed_reverse (fun _ => matches_reverse) fun _ => matches_reverse
  | alt _ _, _ => or_congr matches_reverse matches_reverse
  | star _, _ => exists_congr fun _ => repeats_reverse fun _ => matches_reverse
  | count _ _, _ =>
    exists_congr fun _ => and_congr_right fun _ => and_congr_right fun _ => repeats_reverse fun _ => matches_reverse
  | oneOf intervals, w => by
    refine exists_congr fun i => and_congr_right fun _ => exists_congr fun c => and_congr_right fun _ => ?_
    rw [List.reverse_eq_iff, List.reverse_singleton]

end Pattern
end PatternAutomata
