import Mathlib.Data.List.Basic
import PatternAutomata.Proofs.Pattern.Accepted
/-!
# Length — the shortest words of a pattern

The shortest word that matches a pattern is as long as `leastLength` says, and the automaton accepts no shorter one:
what it accepts beyond the matches are words of repetitions, and those may be empty anyway.  The 64-bit computation of
that length gives the same number (`leastLength_of_minLength`), or none if a step of it overflows
(`exists_minLength_iff`).
-/
namespace PatternAutomata

variable {L : Word → Prop} {k m : Nat} {w : Word}

theorem Repeats.le_length (h : ∀ w, L w → m ≤ w.length) : ∀ {k : Nat} {w : Word}, Repeats L k w → m * k ≤ w.length
  | 0, _, _ => Nat.zero_le _
  | k + 1, _, ⟨u, v, huv, hu, hv⟩ => by
    have hu := h u hu
    have hv := Repeats.le_length h hv
    rw [← huv, List.length_append, Nat.mul_succ]
    omega

/-- One word of `L`, written `k` times. -/
theorem exists_repeats (hw : L w) : ∀ k, ∃ v, Repeats L k v ∧ v.length = w.length * k
  | 0 => ⟨[], rfl, rfl⟩
  | k + 1 => by
    obtain ⟨v, hv, hlen⟩ := exists_repeats hw k
    refine ⟨w ++ v, ⟨w, v, rfl, hw, hv⟩, ?_⟩
    rw [List.length_append, hlen, Nat.mul_succ, Nat.add_comm]

namespace Pattern

/-- The length of the shortest matching word. -/
def leastLength : Pattern → Nat
  | word w => w.length
  | seq head tail => head.leastLength + tail.leastLength
  | alt left right => min left.leastLength right.leastLength
  | star _ => 0
  | count p times => p.leastLength * times.least
  | oneOf _ => 1

/-- Some word that matches is that short. -/
theorem exists_matches : ∀ {p : Pattern}, p.Filled → ∃ w, p.Matches w ∧ w.length = p.leastLength
  | word w, _ => ⟨w, rfl, rfl⟩
  | seq _ _, ⟨hhead, htail⟩ => by
    obtain ⟨u, hu, hulen⟩ := exists_matches hhead
    obtain ⟨v, hv, hvlen⟩ := exists_matches htail
    exact ⟨u ++ v, ⟨u, v, rfl, hu, hv⟩, by rw [List.length_append, hulen, hvlen, leastLength]⟩
  | alt left right, ⟨hleft, hright⟩ => by
    rcases Nat.le_total left.leastLength right.leastLength with h | h
    · obtain ⟨u, hu, hlen⟩ := exists_matches hleft
      exact ⟨u, .inl hu, hlen.trans (Nat.min_eq_left h).symm⟩
    · obtain ⟨v, hv, hlen⟩ := exists_matches hright
      exact ⟨v, .inr hv, hlen.trans (Nat.min_eq_right h).symm⟩
  | star _, _ => ⟨[], ⟨0, rfl⟩, rfl⟩
  | count p times, hp => by
    obtain ⟨u, hu, hlen⟩ := exists_matches (p := p) hp
    obtain ⟨v, hv, hvlen⟩ := exists_repeats hu times.least
    exact ⟨v, ⟨times.least, Nat.le_refl _, times.least_le_greatest, hv⟩, by rw [hvlen, hlen, leastLength]⟩
  | oneOf intervals, hne => by
    obtain ⟨i, hi⟩ := List.exists_mem_of_ne_nil intervals hne
    exact ⟨[i.lo], ⟨i, hi, i.lo, i.lo_mem, rfl⟩, rfl⟩

theorem exists_accepted {p : Pattern} (hp : p.Filled) : ∃ w, p.Accepted w := by
  obtain ⟨w, hw, -⟩ := exists_matches hp
  exact ⟨w, accepted_of_matches hw⟩

/-- No accepted word is shorter. -/
theorem leastLength_le : ∀ {p : Pattern} {w : Word}, p.Accepted w → p.leastLength ≤ w.length
  | word _, _, rfl => Nat.le_refl _
  | seq _ _, _, ⟨u, v, huv, hu, hv⟩ => by
    rw [← huv, List.length_append]
    exact Nat.add_le_add (leastLength_le hu) (leastLength_le hv)
  | alt _ _, _, .inl h => Nat.le_trans (Nat.min_le_left _ _) (leastLength_le h)
  | alt _ _, _, .inr h => Nat.le_trans (Nat.min_le_right _ _) (leastLength_le h)
  | star _, _, _ => Nat.zero_le _
  | count p times, w, ⟨_, hle, _, h⟩ =>
    Nat.le_trans (Nat.mul_le_mul_left p.leastLength hle) (h.le_length fun _ hu => leastLength_le hu)
  | oneOf _, _, ⟨_, _, _, _, rfl⟩ => Nat.le_refl 1

/-! ## The length in 64 bits -/

/-- No step of the computation of `minLength` overflows. -/
def MinLengthFits : Pattern → Prop
  | word w => w.length < UInt64.size
  | seq head tail => head.MinLengthFits ∧ tail.MinLengthFits ∧ head.leastLength + tail.leastLength < UInt64.size
  | alt left right => left.MinLengthFits ∧ right.MinLengthFits
  | star _ => True
  | count p times => p.MinLengthFits ∧ p.leastLength * times.least < UInt64.size
  | oneOf _ => True

/-- **A computed length is that of the shortest match.** -/
theorem leastLength_of_minLength : ∀ {p : Pattern} {k : UInt64}, p.minLength = .ok k → k.toNat = p.leastLength
  | word _, _, h => fit_eq_ok.1 h
  | seq _ _, _, h => by
    obtain ⟨m, hm, h⟩ := bind_eq_ok.1 h
    obtain ⟨n, hn, h⟩ := bind_eq_ok.1 h
    rw [fit_eq_ok.1 h, leastLength_of_minLength hm, leastLength_of_minLength hn, leastLength]
  | alt _ _, _, h => by
    obtain ⟨m, hm, h⟩ := bind_eq_ok.1 h
    obtain ⟨n, hn, h⟩ := bind_eq_ok.1 h
    cases h
    rw [UInt64.toNat_min, leastLength_of_minLength hm, leastLength_of_minLength hn, leastLength]
  | star _, _, rfl => rfl
  | count p _, _, h => by
    obtain ⟨m, hm, h⟩ := bind_eq_ok.1 h
    rw [fit_eq_ok.1 h, leastLength_of_minLength (p := p) hm, leastLength]
  | oneOf _, _, rfl => rfl

/-- **There is one exactly when no step overflows.** -/
theorem exists_minLength_iff : ∀ {p : Pattern}, (∃ k, p.minLength = .ok k) ↔ p.MinLengthFits
  | word _ => exists_fit_iff
  | seq head tail => by
    constructor
    · rintro ⟨k, h⟩
      obtain ⟨m, hm, h⟩ := bind_eq_ok.1 h
      obtain ⟨n, hn, h⟩ := bind_eq_ok.1 h
      rw [leastLength_of_minLength hm, leastLength_of_minLength hn] at h
      exact ⟨exists_minLength_iff.1 ⟨m, hm⟩, exists_minLength_iff.1 ⟨n, hn⟩, exists_fit_iff.1 ⟨k, h⟩⟩
    · rintro ⟨hhead, htail, hsum⟩
      obtain ⟨m, hm⟩ := exists_minLength_iff.2 hhead
      obtain ⟨n, hn⟩ := exists_minLength_iff.2 htail
      rw [← leastLength_of_minLength hm, ← leastLength_of_minLength hn] at hsum
      obtain ⟨k, hk⟩ := exists_fit_iff.2 hsum
      exact ⟨k, bind_eq_ok.2 ⟨m, hm, bind_eq_ok.2 ⟨n, hn, hk⟩⟩⟩
  | alt left right => by
    constructor
    · rintro ⟨k, h⟩
      obtain ⟨m, hm, h⟩ := bind_eq_ok.1 h
      obtain ⟨n, hn, -⟩ := bind_eq_ok.1 h
      exact ⟨exists_minLength_iff.1 ⟨m, hm⟩, exists_minLength_iff.1 ⟨n, hn⟩⟩
    · rintro ⟨hleft, hright⟩
      obtain ⟨m, hm⟩ := exists_minLength_iff.2 hleft
      obtain ⟨n, hn⟩ := exists_minLength_iff.2 hright
      exact ⟨min m n, bind_eq_ok.2 ⟨m, hm, bind_eq_ok.2 ⟨n, hn, rfl⟩⟩⟩
  | star _ => ⟨fun _ => trivial, fun _ => ⟨0, rfl⟩⟩
  | count p times => by
    constructor
    · rintro ⟨k, h⟩
      obtain ⟨m, hm, h⟩ := bind_eq_ok.1 h
      rw [leastLength_of_minLength hm] at h
      exact ⟨exists_minLength_iff.1 ⟨m, hm⟩, exists_fit_iff.1 ⟨k, h⟩⟩
    · rintro ⟨hp, hproduct⟩
      obtain ⟨m, hm⟩ := exists_minLength_iff.2 hp
      rw [← leastLength_of_minLength hm] at hproduct
      obtain ⟨k, hk⟩ := exists_fit_iff.2 hproduct
      exact ⟨k, bind_eq_ok.2 ⟨m, hm, hk⟩⟩
  | oneOf _ => ⟨fun _ => trivial, fun _ => ⟨1, rfl⟩⟩

instance decidableMinLengthFits (p : Pattern) : Decidable p.MinLengthFits :=
  match h : p.minLength with
  | .ok k => .isTrue (exists_minLength_iff.1 ⟨k, h⟩)
  | .error _ => .isFalse fun hfits => by
    obtain ⟨k, hk⟩ := exists_minLength_iff.2 hfits
    cases h.symm.trans hk

end Pattern
end PatternAutomata
