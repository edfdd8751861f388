import PatternAutomata.Proofs.Pattern.Length
/-!
# Longest — the longest words of a pattern

A pattern without a repetition has a longest word, if it has any word at all, and it is as long as `greatestLength` says.
A length computed in 64 bits is always that one (`greatestLength_of_maxLength`): a product that overflows leaves the
pattern without a length, and a sum that overflows is at fault (`maxLength_eq_error`).  So where nothing overflows both
computed lengths are exact (`lengths_exact`), and the longest one is safe exactly when no sum overflows
(`maxLength_safe`), which a sum can (`maxLength_runs`).
-/
namespace PatternAutomata

variable {L : Word → Prop} {m : Nat}

theorem Repeats.length_le (h : ∀ w, L w → w.length ≤ m) : ∀ {k : Nat} {w : Word}, Repeats L k w → w.length ≤ m * k
  | 0, _, rfl => Nat.zero_le _
  | k + 1, _, ⟨u, v, huv, hu, hv⟩ => by
    have hu := h u hu
    have hv := Repeats.length_le h hv
    rw [← huv, List.length_append, Nat.mul_succ]
    omega

namespace Pattern

/-- The length of the longest matching word, if the lengths are bounded. -/
def greatestLength : Pattern → Option Nat
  | word w => some w.length
  | seq head tail => head.greatestLength.bind fun m => tail.greatestLength.map (m + ·)
  | alt left right => left.greatestLength.bind fun m => right.greatestLength.map (max m)
  | star _ => none
  | count p times => p.greatestLength.map (· * times.greatest)
  | oneOf _ => some 1

variable {p q : Pattern} {times : Bounds} {f : Fault} {k : UInt64}

/-- No word that matches is longer. -/
theorem length_le_of_matches : ∀ {p : Pattern} {n : Nat} {w : Word}, p.greatestLength = some n → p.Matches w →
    w.length ≤ n
  | word _, _, _, rfl, rfl => Nat.le_refl _
  | seq _ _, _, _, hn, ⟨u, v, huv, hu, hv⟩ => by
    obtain ⟨l, hl, hn⟩ := Option.bind_eq_some_iff.1 hn
    obtain ⟨r, hr, rfl⟩ := Option.map_eq_some_iff.1 hn
    rw [← huv, List.length_append]
    exact Nat.add_le_add (length_le_of_matches hl hu) (length_le_of_matches hr hv)
  | alt _ _, _, _, hn, h => by
    obtain ⟨l, hl, hn⟩ := Option.bind_eq_some_iff.1 hn
    obtain ⟨r, hr, rfl⟩ := Option.map_eq_some_iff.1 hn
    rcases h with h | h
    · exact Nat.le_trans (length_le_of_matches hl h) (Nat.le_max_left _ _)
    · exact Nat.le_trans (length_le_of_matches hr h) (Nat.le_max_right _ _)
  | count _ _, _, _, hn, ⟨_, _, hge, h⟩ => by
    obtain ⟨l, hl, rfl⟩ := Option.map_eq_some_iff.1 hn
    exact Nat.le_trans (h.length_le fun _ hu => length_le_of_matches hl hu) (Nat.mul_le_mul_left l hge)
  | oneOf _, _, _, rfl, ⟨_, _, _, _, rfl⟩ => Nat.le_refl 1

/-- Some word that matches is that long. -/
theorem exists_longest : ∀ {p : Pattern} {n : Nat}, p.Filled → p.greatestLength = some n →
    ∃ w, p.Matches w ∧ w.length = n
  | word w, _, _, rfl => ⟨w, rfl, rfl⟩
  | seq _ _, _, ⟨hhead, htail⟩, hn => by
    obtain ⟨l, hl, hn⟩ := Option.bind_eq_some_iff.1 hn
    obtain ⟨r, hr, rfl⟩ := Option.map_eq_some_iff.1 hn
    obtain ⟨u, hu, hulen⟩ := exists_longest hhead hl
    obtain ⟨v, hv, hvlen⟩ := exists_longest htail hr
    exact ⟨u ++ v, ⟨u, v, rfl, hu, hv⟩, by rw [List.length_append, hulen, hvlen]⟩
  | alt _ _, _, ⟨hleft, hright⟩, hn => by
    obtain ⟨l, hl, hn⟩ := Option.bind_eq_some_iff.1 hn
    obtain ⟨r, hr, rfl⟩ := Option.map_eq_some_iff.1 hn
    rcases Nat.le_total l r with h | h
    · obtain ⟨v, hv, hvlen⟩ := exists_longest hright hr
      exact ⟨v, .inr hv, hvlen.trans (Nat.max_eq_right h).symm⟩
    · obtain ⟨u, hu, hulen⟩ := exists_longest hleft hl
      exact ⟨u, .inl hu, hulen.trans (Nat.max_eq_left h).symm⟩
  | count p times, _, hp, hn => by
    obtain ⟨l, hl, rfl⟩ := Option.map_eq_some_iff.1 hn
    obtain ⟨u, hu, hulen⟩ := exists_longest (p := p) hp hl
    obtain ⟨v, hv, hvlen⟩ := exists_repeats hu times.greatest
    exact ⟨v, ⟨times.greatest, times.least_le_greatest, Nat.le_refl _, hv⟩, by rw [hvlen, hulen]⟩
  | oneOf intervals, _, hne, rfl => by
    obtain ⟨i, hi⟩ := List.exists_mem_of_ne_nil intervals hne
    exact ⟨[i.lo], ⟨i, hi, i.lo, i.lo_mem, rfl⟩, rfl⟩

/-! ## The length in 64 bits -/

theorem maxLength_count (p : Pattern) (times : Bounds) : (count p times).maxLength =
    p.maxLength.bind fun o => .ok (o.bind fun m => fit? (m.toNat * times.greatest)) := rfl

theorem maxLength_count_eq_some : (count p times).maxLength = .ok (some k) ↔
    ∃ m, p.maxLength = .ok (some m) ∧ k.toNat = m.toNat * times.greatest := by
  simp [maxLength_count, bind_eq_ok, Option.exists, fit?_eq_some]

theorem maxLength_count_eq_none : (count p times).maxLength = .ok none ↔
    p.maxLength = .ok none ∨ ∃ m, p.maxLength = .ok (some m) ∧ UInt64.size ≤ m.toNat * times.greatest := by
  simp [maxLength_count, bind_eq_ok, Option.exists, fit?_eq_none]

theorem maxLength_count_eq_error : (count p times).maxLength = .error f ↔ p.maxLength = .error f := by
  simp [maxLength_count, bind_eq_error]

/-- **A computed length is the exact one.** -/
theorem greatestLength_of_maxLength : ∀ {p : Pattern} {k : UInt64}, p.maxLength = .ok (some k) →
    p.greatestLength = some k.toNat
  | word _, _, h => by
    obtain ⟨m, hm, h⟩ := bind_eq_ok.1 h
    cases h
    exact congrArg some (fit_eq_ok.1 hm).symm
  | seq _ _, _, h => by
    obtain ⟨m, n, hm, hn, hsum⟩ := both_eq_some.1 h
    rw [greatestLength, greatestLength_of_maxLength hm, greatestLength_of_maxLength hn, fit_eq_ok.1 hsum]
    rfl
  | alt _ _, _, h => by
    obtain ⟨m, n, hm, hn, hmax⟩ := both_eq_some.1 h
    cases hmax
    rw [greatestLength, greatestLength_of_maxLength hm, greatestLength_of_maxLength hn, UInt64.toNat_max]
    rfl
  | count p _, _, h => by
    obtain ⟨m, hm, hproduct⟩ := maxLength_count_eq_some.1 h
    rw [greatestLength, greatestLength_of_maxLength (p := p) hm, hproduct]
    rfl
  | oneOf _, _, rfl => rfl

/-- No sum in the computation of `maxLength` overflows.  The computation ends at the first part that has no greatest
length. -/
def SumsFit : Pattern → Prop
  | word w => w.length < UInt64.size
  | seq head tail => head.SumsFit ∧ ∀ m, head.maxLength = .ok (some m) →
    tail.SumsFit ∧ ∀ n, tail.maxLength = .ok (some n) → m.toNat + n.toNat < UInt64.size
  | alt left right => left.SumsFit ∧ ((∃ m, left.maxLength = .ok (some m)) → right.SumsFit)
  | star _ => True
  | count p _ => p.SumsFit
  | oneOf _ => True

/-- **A sum that overflows is at fault**, and nothing else is. -/
theorem maxLength_eq_error : ∀ {p : Pattern}, p.maxLength = .error f ↔ f = .sumTooLarge ∧ ¬ p.SumsFit
  | word w => by
    have hword : (word w).maxLength = .error f ↔ fit .sumTooLarge w.length = .error f := by
      simp [maxLength, bind, bind_eq_error, pure, Except.pure]
    rw [hword, fit_eq_error, SumsFit, Nat.not_lt, eq_comm, and_comm]
  | seq head tail => by
    rw [maxLength, both_eq_error, maxLength_eq_error (p := head), maxLength_eq_error (p := tail), SumsFit]
    simp only [fit_eq_error, ← Nat.not_lt]
    -- both sides name the first sum that overflows: in the head, in the tail, or that of the two
    grind
  | alt left right => by
    rw [maxLength, both_eq_error, maxLength_eq_error (p := left), maxLength_eq_error (p := right), SumsFit]
    grind
  | star _ => by simp [maxLength, SumsFit, pure, Except.pure]
  | count p _ => maxLength_count_eq_error.trans (maxLength_eq_error (p := p))
  | oneOf _ => by simp [maxLength, SumsFit, pure, Except.pure]

theorem exists_maxLength_iff : (∃ o, p.maxLength = .ok o) ↔ p.SumsFit := by
  cases h : p.maxLength with
  | error f =>
    have hsums := (maxLength_eq_error.1 h).2
    exact ⟨fun ⟨_, ho⟩ => (nomatch ho), fun hp => absurd hp hsums⟩
  | ok o =>
    refine ⟨fun _ => not_not.1 fun hsums => ?_, fun _ => ⟨o, rfl⟩⟩
    cases h.symm.trans (maxLength_eq_error.2 ⟨rfl, hsums⟩)

instance decidableSumsFit (p : Pattern) : Decidable p.SumsFit :=
  match h : p.maxLength with
  | .ok o => .isTrue (exists_maxLength_iff.1 ⟨o, h⟩)
  | .error _ => .isFalse (maxLength_eq_error.1 h).2

/-- No product of exact lengths overflows.  A part that follows one without a greatest length is not looked at. -/
def ProductsFit : Pattern → Prop
  | word _ => True
  | seq head tail => head.ProductsFit ∧ (head.greatestLength.isSome → tail.ProductsFit)
  | alt left right => left.ProductsFit ∧ (left.greatestLength.isSome → right.ProductsFit)
  | star _ => True
  | count p times => p.ProductsFit ∧ ∀ m ∈ p.greatestLength, m * times.greatest < UInt64.size
  | oneOf _ => True

instance decidableProductsFit : ∀ p : Pattern, Decidable p.ProductsFit
  | word _ => inferInstanceAs (Decidable True)
  | seq head tail =>
    have := decidableProductsFit head
    have := decidableProductsFit tail
    inferInstanceAs (Decidable (_ ∧ (_ → _)))
  | alt left right =>
    have := decidableProductsFit left
    have := decidableProductsFit right
    inferInstanceAs (Decidable (_ ∧ (_ → _)))
  | star _ => inferInstanceAs (Decidable True)
  | count p _ =>
    have := decidableProductsFit p
    inferInstanceAs (Decidable (_ ∧ _))
  | oneOf _ => inferInstanceAs (Decidable True)

/-- A length is computed from the lengths of all parts. -/
theorem exists_maxLength_of_mem_parts : ∀ {p : Pattern} {k : UInt64}, p.maxLength = .ok (some k) → ∀ q ∈ p.parts,
    ∃ l, q.maxLength = .ok (some l)
  | word _, k, hk, _, hq => by
    cases List.mem_singleton.1 hq
    exact ⟨k, hk⟩
  | oneOf _, k, hk, _, hq => by
    cases List.mem_singleton.1 hq
    exact ⟨k, hk⟩
  | seq head tail, k, hk, q, hq => by
    obtain ⟨m, n, hm, hn, -⟩ := both_eq_some.1 hk
    rcases List.mem_cons.1 hq with rfl | hq
    · exact ⟨k, hk⟩
    · rcases List.mem_append.1 hq with hq | hq
      · exact exists_maxLength_of_mem_parts hm q hq
      · exact exists_maxLength_of_mem_parts hn q hq
  | alt left right, k, hk, q, hq => by
    obtain ⟨m, n, hm, hn, -⟩ := both_eq_some.1 hk
    rcases List.mem_cons.1 hq with rfl | hq
    · exact ⟨k, hk⟩
    · rcases List.mem_append.1 hq with hq | hq
      · exact exists_maxLength_of_mem_parts hm q hq
      · exact exists_maxLength_of_mem_parts hn q hq
  | count p times, k, hk, q, hq => by
    obtain ⟨m, hm, -⟩ := maxLength_count_eq_some.1 hk
    rcases List.mem_cons.1 hq with rfl | hq
    · exact ⟨k, hk⟩
    · exact exists_maxLength_of_mem_parts hm q hq

theorem maxLength_ne_some_of_star (h : star q ∈ p.parts) : p.maxLength ≠ .ok (some k) := fun hk => by
  obtain ⟨l, hl⟩ := exists_maxLength_of_mem_parts hk _ h
  cases hl

/-- Where no product overflows, there is no length for want of a bound only. -/
theorem exists_star_of_maxLength_eq_none : ∀ {p : Pattern}, p.ProductsFit → p.maxLength = .ok none →
    ∃ q, star q ∈ p.parts
  | word _, _, hnone => by
    obtain ⟨_, _, h⟩ := bind_eq_ok.1 hnone
    cases h
  | star p, _, _ => ⟨p, self_mem_parts _⟩
  | seq head tail, ⟨hhead, htail⟩, hnone => by
    rcases both_eq_none.1 hnone with h | ⟨⟨m, hm⟩, h⟩
    · obtain ⟨q, hq⟩ := exists_star_of_maxLength_eq_none hhead h
      exact ⟨q, List.mem_cons_of_mem _ (List.mem_append_left _ hq)⟩
    · have hsome : head.greatestLength.isSome := greatestLength_of_maxLength hm ▸ rfl
      obtain ⟨q, hq⟩ := exists_star_of_maxLength_eq_none (htail hsome) h
      exact ⟨q, List.mem_cons_of_mem _ (List.mem_append_right _ hq)⟩
  | alt left right, ⟨hleft, hright⟩, hnone => by
    rcases both_eq_none.1 hnone with h | ⟨⟨m, hm⟩, h⟩
    · obtain ⟨q, hq⟩ := exists_star_of_maxLength_eq_none hleft h
      exact ⟨q, List.mem_cons_of_mem _ (List.mem_append_left _ hq)⟩
    · have hsome : left.greatestLength.isSome := greatestLength_of_maxLength hm ▸ rfl
      obtain ⟨q, hq⟩ := exists_star_of_maxLength_eq_none (hright hsome) h
      exact ⟨q, List.mem_cons_of_mem _ (List.mem_append_right _ hq)⟩
  | count p times, ⟨hp, hproduct⟩, hnone => by
    rcases maxLength_count_eq_none.1 hnone with h | ⟨m, hm, hlarge⟩
    · obtain ⟨q, hq⟩ := exists_star_of_maxLength_eq_none hp h
      exact ⟨q, List.mem_cons_of_mem _ hq⟩
    · exact absurd (hproduct _ (greatestLength_of_maxLength hm)) (Nat.not_lt.2 hlarge)

/-- **Both lengths are exact.**  Where no step of their computation overflows they are computed, no matching word is
shorter than the one and none longer than the other, some matching word is as short and some as long, and there is no
greatest length exactly when there is a repetition. -/
theorem lengths_exact (p : Pattern) (hp : p.Filled) (hmin : p.MinLengthFits) (hsums : p.SumsFit)
    (hproducts : p.ProductsFit) : ∃ k o, p.minLength = .ok k ∧ p.maxLength = .ok o ∧
    ((∀ w, p.Matches w → k.toNat ≤ w.length) ∧ ∃ w, p.Matches w ∧ w.length = k.toNat) ∧
    (∀ m, o = some m → (∀ w, p.Matches w → w.length ≤ m.toNat) ∧ (∃ w, p.Matches w ∧ w.length = m.toNat) ∧ k ≤ m) ∧
    (o = none ↔ ∃ q, star q ∈ p.parts) := by
  obtain ⟨k, hk⟩ := exists_minLength_iff.2 hmin
  obtain ⟨o, ho⟩ := exists_maxLength_iff.2 hsums
  have hleast := leastLength_of_minLength hk
  have hshort : ∀ w, p.Matches w → k.toNat ≤ w.length := fun w hw => hleast ▸ leastLength_le (accepted_of_matches hw)
  refine ⟨k, o, hk, ho, ⟨hshort, hleast ▸ exists_matches hp⟩, ?_, ?_, ?_⟩
  · rintro m rfl
    have hgreatest := greatestLength_of_maxLength ho
    obtain ⟨w, hw, hlen⟩ := exists_longest hp hgreatest
    exact ⟨fun _ => length_le_of_matches hgreatest, ⟨w, hw, hlen⟩, UInt64.le_iff_toNat_le.2 (hlen ▸ hshort w hw)⟩
  · rintro rfl
    exact exists_star_of_maxLength_eq_none hproducts ho
  · rintro ⟨q, hq⟩
    cases o with
    | none => rfl
    | some m => exact absurd ho (maxLength_ne_some_of_star hq)

/-- `(ab|c){2,3}[x-z]` matches words of three to seven characters. -/
theorem lengths_exact_counted :
    let p := seq (count (alt (word ['a', 'b']) (word ['c'])) ⟨2, 3, by decide, by decide⟩)
      (oneOf [⟨'x', 'z', by decide⟩])
    p.Filled ∧ p.MinLengthFits ∧ p.SumsFit ∧ p.ProductsFit ∧ p.minLength = .ok 3 ∧ p.maxLength = .ok (some 7) ∧
      (∀ w, p.Matches w → 3 ≤ w.length ∧ w.length ≤ 7) ∧
      (∃ w, p.Matches w ∧ w.length = 3) ∧ ∃ w, p.Matches w ∧ w.length = 7 := by
  intro p
  have hfilled : p.Filled := ⟨⟨trivial, trivial⟩, List.cons_ne_nil _ _⟩
  have hmin : p.MinLengthFits := by decide
  have hsums : p.SumsFit := by decide
  have hproducts : p.ProductsFit := by decide
  have hthree : p.minLength = .ok 3 := by decide
  have hseven : p.maxLength = .ok (some 7) := by decide
  obtain ⟨k, o, hk, ho, ⟨hshort, hshortest⟩, hmax, -⟩ := lengths_exact p hfilled hmin hsums hproducts
  cases hthree.symm.trans hk
  cases hseven.symm.trans ho
  obtain ⟨hlong, hlongest, -⟩ := hmax 7 rfl
  exact ⟨hfilled, hmin, hsums, hproducts, hthree, hseven, fun w hw => ⟨hshort w hw, hlong w hw⟩, hshortest, hlongest⟩

/-! ## Lengths that do not fit -/

/-- What may be asked of the computation however large the lengths are: it comes to an end without a fault, no matching
word is longer than it says, and it says nothing where the exact length of the pattern or of a part does not fit 64
bits. -/
structure BoundSafe (p : Pattern) : Prop where
  computed : ∃ o, p.maxLength = .ok o
  bound : ∀ m, p.maxLength = .ok (some m) → ∀ w, p.Matches w → w.length ≤ m.toNat
  refused : ∀ q ∈ p.parts, ∀ n, q.greatestLength = some n → UInt64.size ≤ n → p.maxLength = .ok none

theorem boundSafe_iff : p.BoundSafe ↔ p.SumsFit := by
  constructor
  · intro h
    exact exists_maxLength_iff.1 h.computed
  · intro hsums
    obtain ⟨o, ho⟩ := exists_maxLength_iff.2 hsums
    refine ⟨⟨o, ho⟩, fun m hm w hw => length_le_of_matches (greatestLength_of_maxLength hm) hw,
      fun q hq n hn hle => ?_⟩
    cases o with
    | none => exact ho
    | some k =>
      obtain ⟨l, hl⟩ := exists_maxLength_of_mem_parts ho q hq
      cases hn.symm.trans (greatestLength_of_maxLength hl)
      exact absurd l.toNat_lt_size (Nat.not_lt.2 hle)

/-- **The computation is safe exactly when no sum of it overflows.**  Where one does it is at fault; a product does no
harm, and a length that is computed is the exact one in any case. -/
theorem maxLength_safe (p : Pattern) : (p.BoundSafe ↔ p.SumsFit) ∧
    (∀ f, p.maxLength = .error f ↔ f = .sumTooLarge ∧ ¬ p.SumsFit) ∧
    ∀ m, p.maxLength = .ok (some m) → p.greatestLength = some m.toNat :=
  ⟨boundSafe_iff, fun _ => maxLength_eq_error, fun _ => greatestLength_of_maxLength⟩

/-- `x`, repeated up to 2 ^ 63 times. -/
def runs : Pattern :=
  let times : Bounds := ⟨1, 2097152, by decide, by decide⟩
  count (count (count (word ['x']) times) times) times

/-- Of two runs of up to 2 ^ 63 characters the greatest length is not refused: the computation is at fault. -/
theorem maxLength_runs : (seq runs runs).maxLength = .error .sumTooLarge ∧ (seq runs runs).minLength = .ok 2 ∧
    (seq runs runs).greatestLength = some UInt64.size ∧ (seq runs runs).Matches ['x', 'x'] ∧
    ¬ (seq runs runs).BoundSafe := by
  have hmax : (seq runs runs).maxLength = .error .sumTooLarge := by decide
  have hone : runs.Matches ['x'] :=
    ⟨1, by decide, by decide, repeats_one.2 ⟨1, by decide, by decide, repeats_one.2 ⟨1, by decide, by decide,
      repeats_one.2 rfl⟩⟩⟩
  refine ⟨hmax, by decide, by decide, ⟨['x'], ['x'], rfl, hone, hone⟩, fun h => ?_⟩
  obtain ⟨o, ho⟩ := h.computed
  cases hmax.symm.trans ho

end Pattern
end PatternAutomata
