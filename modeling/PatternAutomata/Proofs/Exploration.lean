import PatternAutomata.Exploration
/-!
# Exploration — what a breadth-first search finds

An exploration whose limit is large enough visits every node it finds (`exists_explore`), and it numbers the nodes in
the order in which they are first met: whatever is met has been preceded by all smaller numbers (`Invariant.in_order`),
and every node but the root is first met from a node with a smaller number (`Invariant.discovered`).  These two facts
fix the numbering, whatever the moves are labelled with.
-/
namespace PatternAutomata

open Std (TransOrd LawfulEqOrd)

variable {κ β ε : Type}

/-- Where a row has the numbers of what some moves lead to, each of its entries is one of the moves. -/
theorem exists_of_mem_row {keys : Array κ} {row : List (β × Nat)} {moves : List (β × κ)}
    (h : row.map (fun m => (m.1, keys[m.2]?)) = moves.map fun m => (m.1, some m.2)) {m : β × Nat} (hm : m ∈ row) :
    ∃ x, keys[m.2]? = some x ∧ (m.1, x) ∈ moves := by
  have hmem : (m.1, keys[m.2]?) ∈ moves.map fun m => (m.1, some m.2) := h ▸ List.mem_map_of_mem hm
  obtain ⟨l, hl, heq⟩ := List.mem_map.1 hmem
  exact ⟨l.2, (congrArg Prod.snd heq).symm, congrArg Prod.fst heq ▸ hl⟩

/-- Where a row has the numbers of what some moves lead to, each move is one of its entries. -/
theorem exists_mem_row_of_mem {keys : Array κ} {row : List (β × Nat)} {moves : List (β × κ)}
    (h : row.map (fun m => (m.1, keys[m.2]?)) = moves.map fun m => (m.1, some m.2)) {m : β × κ} (hm : m ∈ moves) :
    ∃ j, keys[j]? = some m.2 ∧ (m.1, j) ∈ row := by
  have hmem : (m.1, some m.2) ∈ row.map fun m => (m.1, keys[m.2]?) := h.symm ▸ List.mem_map_of_mem hm
  obtain ⟨l, hl, heq⟩ := List.mem_map.1 hmem
  exact ⟨l.2, congrArg Prod.snd heq, congrArg Prod.fst heq ▸ hl⟩

/-- An array that has each key in one place only has no key twice. -/
theorem nodup_toList_of_getElem? {keys : Array κ}
    (h : ∀ (i j : Nat) (k : κ), keys[i]? = some k → keys[j]? = some k → i = j) : keys.toList.Nodup := by
  refine List.pairwise_iff_getElem.2 fun i j hi hj hij heq => ?_
  have hi' : keys[i]? = some keys.toList[i] := by rw [← Array.getElem?_toList, List.getElem?_eq_getElem hi]
  have hj' : keys[j]? = some keys.toList[i] := by rw [← Array.getElem?_toList, List.getElem?_eq_getElem hj, heq]
  exact Nat.ne_of_lt hij (h i j _ hi' hj')

variable [Ord κ]

namespace Numbering

/-- `after` knows the keys of `before` and those of `moves`, in order of first appearance, and `row` has their
numbers. -/
structure Numbers (before : Numbering κ) (moves : List (β × κ)) (row : List (β × Nat)) (after : Numbering κ) :
    Prop where
  size_le : before.keys.size ≤ after.keys.size
  kept : ∀ (i : Nat) (k : κ), before.keys[i]? = some k → after.keys[i]? = some k
  row_eq : row.map (fun m => (m.1, after.keys[m.2]?)) = moves.map fun m => (m.1, some m.2)
  new : ∀ i, before.keys.size ≤ i → i < after.keys.size → ∃ m ∈ row, m.2 = i
  in_order : ∀ pre m post, row = pre ++ m :: post → ∀ i < m.2, i < before.keys.size ∨ ∃ l ∈ pre, l.2 = i

variable [TransOrd κ] [LawfulEqOrd κ]

theorem size_number (n : Numbering κ) (k : κ) :
    n.keys.size ≤ (n.number k).2.keys.size ∧ (n.number k).1 ≤ n.keys.size ∧
      ∀ i, n.keys.size ≤ i → i < (n.number k).2.keys.size → i = (n.number k).1 := by
  by_cases h : k ∈ n.keys
  · obtain ⟨i, hi⟩ := Array.getElem?_of_mem h
    rw [number_of_met hi]
    have := (Array.getElem?_eq_some_iff.1 hi).1
    exact ⟨Nat.le_refl _, Nat.le_of_lt this, fun j hj hlt => absurd hlt (Nat.not_lt.2 hj)⟩
  · rw [(number_of_new h).1, (number_of_new h).2, Array.size_push]
    exact ⟨Nat.le_succ _, Nat.le_refl _, fun j _ _ => by omega⟩

theorem numbers_numberAll (n : Numbering κ) (moves : List (β × κ)) :
    n.Numbers moves (n.numberAll moves).1 (n.numberAll moves).2 := by
  induction moves generalizing n with
  | nil =>
    exact ⟨Nat.le_refl _, fun _ _ h => h, rfl, fun i h h' => absurd h' (Nat.not_lt.2 h),
      fun pre m post h => by cases pre <;> cases h⟩
  | cons m moves ih =>
    obtain ⟨label, k⟩ := m
    obtain ⟨hle, hi, hnew⟩ := n.size_number k
    have hk := n.getElem?_number k
    have ih := ih (n.number k).2
    refine ⟨Nat.le_trans hle ih.size_le, fun i x h => ih.kept i x (getElem?_number_of_met k h), ?_, fun i h h' => ?_,
      ?_⟩
    · rw [numberAll, List.map_cons, List.map_cons, ih.row_eq, ih.kept _ _ hk]
    · by_cases hlt : i < (n.number k).2.keys.size
      · exact ⟨_, List.mem_cons_self, (hnew i h hlt).symm⟩
      · obtain ⟨m, hm, hmi⟩ := ih.new i (Nat.not_lt.1 hlt) h'
        exact ⟨m, List.mem_cons_of_mem _ hm, hmi⟩
    · intro pre m post hrow i him
      cases pre with
      | nil =>
        simp only [numberAll, List.nil_append, List.cons.injEq] at hrow
        obtain ⟨rfl, -⟩ := hrow
        exact .inl (Nat.lt_of_lt_of_le him hi)
      | cons l pre =>
        simp only [numberAll, List.cons_append, List.cons.injEq] at hrow
        obtain ⟨rfl, hrow⟩ := hrow
        rcases ih.in_order pre m post hrow i him with h | ⟨l, hl, hli⟩
        · by_cases hlt : i < n.keys.size
          · exact .inl hlt
          · exact .inr ⟨_, List.mem_cons_self, (hnew i (Nat.not_lt.1 hlt) h).symm⟩
        · exact .inr ⟨l, List.mem_cons_of_mem _ hl, hli⟩

end Numbering

namespace Exploration

/-- A move leads from node `i`, which has been visited, to node `j`. -/
def Leads (e : Exploration κ β) (i j : Nat) : Prop := ∃ row, e.rows[i]? = some row ∧ ∃ m ∈ row, m.2 = j

/-- What an exploration of the moves `next` from `root` keeps, `P` being what it may count on of every node. -/
structure Invariant (P : κ → Prop) (next : κ → List (β × κ)) (root : κ) (e : Exploration κ β) : Prop where
  rows_le : e.rows.size ≤ e.found.keys.size
  root_eq : e.found.keys[0]? = some root
  holds : ∀ (i : Nat) (k : κ), e.found.keys[i]? = some k → P k
  row_eq : ∀ (i : Nat) (k : κ) (row : List (β × Nat)), e.found.keys[i]? = some k → e.rows[i]? = some row →
    row.map (fun m => (m.1, e.found.keys[m.2]?)) = (next k).map fun m => (m.1, some m.2)
  discovered : ∀ j, 0 < j → j < e.found.keys.size → ∃ i, i < j ∧ e.Leads i j
  in_order : ∀ (i : Nat) (pre : List (β × Nat)) (m : β × Nat) (post : List (β × Nat)),
    e.rows[i]? = some (pre ++ m :: post) → ∀ j, 0 < j → j < m.2 → (∃ p, p < i ∧ e.Leads p j) ∨ ∃ l ∈ pre, l.2 = j

variable {P : κ → Prop} {next : κ → List (β × κ)} {root : κ} {e : Exploration κ β} {i : Nat} {k : κ}

theorem Invariant.nodup_keys : e.found.keys.toList.Nodup :=
  nodup_toList_of_getElem? fun _ _ _ => Numbering.eq_of_getElem?

theorem Invariant.holds_of_mem (h : e.Invariant P next root) (hk : k ∈ e.found.keys) : P k := by
  obtain ⟨i, hi⟩ := Array.getElem?_of_mem hk
  exact h.holds i k hi

/-- An exploration finds no more nodes than there are. -/
theorem Invariant.size_le (h : e.Invariant P next root) {N : Nat}
    (hN : ∀ ks : List κ, ks.Nodup → (∀ k ∈ ks, P k) → ks.length ≤ N) : e.found.keys.size ≤ N := by
  have := hN e.found.keys.toList nodup_keys fun k hk => h.holds_of_mem (Array.mem_toList_iff.1 hk)
  rwa [Array.length_toList] at this

theorem Leads.push {found : Numbering κ} {row : List (β × Nat)} {j : Nat} (h : e.Leads i j) :
    Leads ⟨found, e.rows.push row⟩ i j := by
  obtain ⟨r, hr, hm⟩ := h
  have := (Array.getElem?_eq_some_iff.1 hr).1
  exact ⟨r, by rw [Array.getElem?_push, if_neg (Nat.ne_of_lt this)]; exact hr, hm⟩

/-! ## Rows -/

/-- The row of a node has the labels of its moves, in order. -/
theorem Invariant.labels_eq (h : e.Invariant P next root) {row : List (β × Nat)} (hk : e.found.keys[i]? = some k)
    (hrow : e.rows[i]? = some row) : row.map (·.1) = (next k).map (·.1) := by
  have := congrArg (List.map Prod.fst) (h.row_eq i k row hk hrow)
  simpa [List.map_map, Function.comp_def] using this

/-- The row of a node leads where its moves lead. -/
theorem Invariant.mem_row (h : e.Invariant P next root) {row : List (β × Nat)} (hk : e.found.keys[i]? = some k)
    (hrow : e.rows[i]? = some row) {m : β × Nat} (hm : m ∈ row) :
    ∃ x, e.found.keys[m.2]? = some x ∧ (m.1, x) ∈ next k :=
  exists_of_mem_row (h.row_eq i k row hk hrow) hm

/-! ## The search -/

variable [TransOrd κ] [LawfulEqOrd κ]

theorem invariant_start (hroot : P root) :
    Invariant (β := β) P next root ⟨(Numbering.empty.number root).2, #[]⟩ := by
  have hkeys : ((Numbering.empty : Numbering κ).number root).2.keys = #[root] := by
    rw [(Numbering.number_of_new (by simp [Numbering.empty])).2]
    rfl
  refine ⟨by rw [hkeys]; exact Nat.zero_le _, by rw [hkeys]; rfl, fun i k h => ?_, fun i k row _ h => ?_,
    fun j hj hlt => ?_, fun i pre m post h => ?_⟩
  · rw [hkeys] at h
    cases i with
    | zero => cases h; exact hroot
    | succ i => cases h
  · simp at h
  · rw [hkeys] at hlt
    exact absurd hlt (Nat.not_lt.2 hj)
  · simp at h

/-- **Visiting one node keeps the invariant.** -/
theorem Invariant.visit_one (h : e.Invariant P next root) (hk : e.found.keys[e.rows.size]? = some k)
    (hP : ∀ m ∈ next k, P m.2) :
    Invariant P next root ⟨(e.found.numberAll (next k)).2, e.rows.push (e.found.numberAll (next k)).1⟩ := by
  have hn := Numbering.numbers_numberAll e.found (next k)
  generalize (e.found.numberAll (next k)).1 = row at hn
  generalize (e.found.numberAll (next k)).2 = found at hn
  have hlt : e.rows.size < e.found.keys.size := (Array.getElem?_eq_some_iff.1 hk).1
  have hsize := hn.size_le
  have hold {i : Nat} (hi : i < e.found.keys.size) : found.keys[i]? = e.found.keys[i]? :=
    (hn.kept i _ (Array.getElem?_eq_getElem hi)).trans (Array.getElem?_eq_getElem hi).symm
  refine ⟨by rw [Array.size_push]; exact Nat.le_trans hlt hsize, hn.kept 0 root h.root_eq, fun i x hx => ?_,
    fun i x r hx hr => ?_, fun j hj hjlt => ?_, fun i pre m post hrow j hj hjm => ?_⟩
  · by_cases hi : i < e.found.keys.size
    · exact h.holds i x ((hold hi).symm.trans hx)
    · obtain ⟨m, hm, rfl⟩ := hn.new i (Nat.not_lt.1 hi) (Array.getElem?_eq_some_iff.1 hx).1
      obtain ⟨y, hy, hmem⟩ := exists_of_mem_row hn.row_eq hm
      cases hx.symm.trans hy
      exact hP _ hmem
  · rw [Array.getElem?_push] at hr
    split at hr
    · rename_i hi
      cases hr
      have : x = k := Option.some.inj (hx.symm.trans (by dsimp only; rw [hi, hold hlt, hk]))
      exact this ▸ hn.row_eq
    · rename_i hi
      have hilt : i < e.found.keys.size := Nat.lt_of_lt_of_le (Array.getElem?_eq_some_iff.1 hr).1 h.rows_le
      rw [← h.row_eq i x r ((hold hilt).symm.trans hx) hr]
      refine List.map_congr_left fun m hm => congrArg _ (hold ?_)
      obtain ⟨y, hy, -⟩ := h.mem_row ((hold hilt).symm.trans hx) hr hm
      exact (Array.getElem?_eq_some_iff.1 hy).1
  · by_cases hjold : j < e.found.keys.size
    · obtain ⟨i, hij, hleads⟩ := h.discovered j hj hjold
      exact ⟨i, hij, hleads.push⟩
    · exact ⟨e.rows.size, by omega, row, Array.getElem?_push_size, hn.new j (Nat.not_lt.1 hjold) hjlt⟩
  · rw [Array.getElem?_push] at hrow
    split at hrow
    · rename_i hi
      rcases hn.in_order pre m post (Option.some.inj hrow) j hjm with hjold | hpre
      · obtain ⟨p, -, hleads⟩ := h.discovered j hj hjold
        obtain ⟨r, hr, -⟩ := id hleads
        exact .inl ⟨p, hi ▸ (Array.getElem?_eq_some_iff.1 hr).1, hleads.push⟩
      · exact .inr hpre
    · exact (h.in_order i pre m post hrow j hj hjm).imp_left fun ⟨p, hp, hleads⟩ => ⟨p, hp, hleads.push⟩

variable {moves : κ → Except ε (List (β × κ))}

theorem visit_succ_some {limit : Nat} (hk : e.found.keys[e.rows.size]? = some k)
    {ms : List (β × κ)} (hms : moves k = .ok ms) : visit moves (limit + 1) e =
      visit moves limit ⟨(e.found.numberAll ms).2, e.rows.push (e.found.numberAll ms).1⟩ := by
  rw [visit, hk]
  change (moves k).bind _ = _
  rw [hms]
  rfl

theorem visit_succ_eq_ok {limit : Nat} {t : Exploration κ β} (hk : e.found.keys[e.rows.size]? = some k)
    (h : visit moves (limit + 1) e = .ok t) : ∃ ms, moves k = .ok ms ∧
      visit moves limit ⟨(e.found.numberAll ms).2, e.rows.push (e.found.numberAll ms).1⟩ = .ok t := by
  cases hms : moves k with
  | error f =>
    rw [visit, hk] at h
    change (moves k).bind _ = _ at h
    rw [hms] at h
    cases h
  | ok ms => exact ⟨ms, rfl, visit_succ_some hk hms ▸ h⟩

/-- **A search that does not fail visits all that it finds**, if it may visit as many nodes as there are. -/
theorem visit_eq_ok {N : Nat} (hmoves : ∀ k, P k → ∀ ms, moves k = .ok ms → next k = ms ∧ ∀ m ∈ ms, P m.2)
    (hN : ∀ ks : List κ, ks.Nodup → (∀ k ∈ ks, P k) → ks.length ≤ N) {limit : Nat} {e t : Exploration κ β}
    (he : e.Invariant P next root) (hlimit : N ≤ limit + e.rows.size) (h : visit moves limit e = .ok t) :
    t.Invariant P next root ∧ t.rows.size = t.found.keys.size := by
  induction limit generalizing e with
  | zero =>
    cases h
    have := he.size_le hN
    have := he.rows_le
    exact ⟨he, by omega⟩
  | succ limit ih =>
    cases hk : e.found.keys[e.rows.size]? with
    | none =>
      rw [visit, hk] at h
      cases h
      exact ⟨he, Nat.le_antisymm he.rows_le (Array.getElem?_eq_none_iff.1 hk)⟩
    | some k =>
      obtain ⟨ms, hms, h⟩ := visit_succ_eq_ok hk h
      obtain ⟨rfl, hP⟩ := hmoves k (he.holds _ k hk) ms hms
      exact ih (he.visit_one hk hP) (by rw [Array.size_push]; omega) h

theorem visit_agree {δ : Type} (others : κ → Except δ (List (β × κ)))
    (hmoves : ∀ k, P k → moves k = .ok (next k) ∧ ∀ m ∈ next k, P m.2) (hothers : ∀ k, P k → others k = .ok (next k))
    (limit : Nat) (e : Exploration κ β) (he : e.Invariant P next root) :
    ∃ t, visit moves limit e = .ok t ∧ visit others limit e = .ok t ∧ t.Invariant P next root := by
  induction limit generalizing e with
  | zero => exact ⟨e, rfl, rfl, he⟩
  | succ limit ih =>
    cases hk : e.found.keys[e.rows.size]? with
    | none => exact ⟨e, by rw [visit, hk], by rw [visit, hk], he⟩
    | some k =>
      have hP := he.holds _ k hk
      rw [visit_succ_some hk (hmoves k hP).1, visit_succ_some hk (hothers k hP)]
      exact ih _ (he.visit_one hk (hmoves k hP).2)

/-- **A search that may visit as many nodes as there are visits all that it finds.** -/
theorem exists_visit {N : Nat} (hmoves : ∀ k, P k → moves k = .ok (next k) ∧ ∀ m ∈ next k, P m.2)
    (hN : ∀ ks : List κ, ks.Nodup → (∀ k ∈ ks, P k) → ks.length ≤ N) (limit : Nat) (e : Exploration κ β)
    (he : e.Invariant P next root) (hlimit : N ≤ limit + e.rows.size) :
    ∃ t, visit moves limit e = .ok t ∧ t.Invariant P next root ∧ t.rows.size = t.found.keys.size := by
  obtain ⟨t, ht, -, -⟩ := visit_agree moves hmoves (fun k hk => (hmoves k hk).1) limit e he
  refine ⟨t, ht, visit_eq_ok (fun k hk ms hms => ?_) hN he hlimit ht⟩
  obtain ⟨hnext, hP⟩ := hmoves k hk
  cases hnext.symm.trans hms
  exact ⟨rfl, hP⟩

/-- A search that has visited all that it found would not go on if it might. -/
theorem visit_eq_of_le {limit more : Nat} {e t : Exploration κ β} (h : visit moves limit e = .ok t)
    (hfull : t.rows.size = t.found.keys.size) (hle : limit ≤ more) : visit moves more e = .ok t := by
  induction limit generalizing e more with
  | zero =>
    cases h
    cases more with
    | zero => rfl
    | succ more => rw [visit, Array.getElem?_eq_none (Nat.le_of_eq hfull.symm)]
  | succ limit ih =>
    obtain ⟨more, rfl⟩ := Nat.exists_eq_succ_of_ne_zero (Nat.ne_of_gt (Nat.lt_of_lt_of_le limit.succ_pos hle))
    cases hk : e.found.keys[e.rows.size]? with
    | none => rw [visit, hk] at h ⊢; exact h
    | some k =>
      obtain ⟨ms, hms, h⟩ := visit_succ_eq_ok hk h
      rw [visit_succ_some hk hms]
      exact ih h (Nat.le_of_succ_le_succ hle)

theorem explore_eq_ok {N : Nat} (hmoves : ∀ k, P k → ∀ ms, moves k = .ok ms → next k = ms ∧ ∀ m ∈ ms, P m.2)
    (hN : ∀ ks : List κ, ks.Nodup → (∀ k ∈ ks, P k) → ks.length ≤ N) (hroot : P root) {e : Exploration κ β}
    (h : explore moves N root = .ok e) : e.Invariant P next root ∧ e.rows.size = e.found.keys.size :=
  visit_eq_ok hmoves hN (invariant_start hroot) (Nat.le_refl N) h

/-- **What an exploration gives.** -/
theorem exists_explore {N : Nat} (hmoves : ∀ k, P k → moves k = .ok (next k) ∧ ∀ m ∈ next k, P m.2)
    (hN : ∀ ks : List κ, ks.Nodup → (∀ k ∈ ks, P k) → ks.length ≤ N) (hroot : P root) :
    ∃ e, explore moves N root = .ok e ∧ e.Invariant P next root ∧ e.rows.size = e.found.keys.size :=
  exists_visit hmoves hN N _ (invariant_start hroot) (Nat.le_refl N)

theorem exploreAll_spec {N : Nat} (hmoves : ∀ k, P k → ∀ m ∈ next k, P m.2)
    (hN : ∀ ks : List κ, ks.Nodup → (∀ k ∈ ks, P k) → ks.length ≤ N) (hroot : P root) :
    (exploreAll next N root).Invariant P next root ∧
      (exploreAll next N root).rows.size = (exploreAll next N root).found.keys.size := by
  have hok : ∀ k, P k → (.ok (next k) : Except Empty _) = .ok (next k) ∧ ∀ m ∈ next k, P m.2 :=
    fun k hk => ⟨rfl, hmoves k hk⟩
  obtain ⟨e, he, hinv⟩ := exists_explore hok hN hroot
  have : exploreAll next N root = e := by
    unfold exploreAll
    rw [he]
  rwa [this]

/-- **Explorations agree where their moves do**, whatever they take for a failure. -/
theorem explore_agree {δ : Type} (others : κ → Except δ (List (β × κ)))
    (hmoves : ∀ k, P k → moves k = .ok (next k) ∧ ∀ m ∈ next k, P m.2) (hothers : ∀ k, P k → others k = .ok (next k))
    (limit : Nat) (hroot : P root) :
    ∃ e, explore moves limit root = .ok e ∧ explore others limit root = .ok e ∧ e.Invariant P next root :=
  visit_agree others hmoves hothers limit _ (invariant_start hroot)

theorem explore_eq_exploreAll (limit : Nat) (hmoves : ∀ k, P k → moves k = .ok (next k) ∧ ∀ m ∈ next k, P m.2)
    (hroot : P root) : explore moves limit root = .ok (exploreAll next limit root) ∧
      (exploreAll next limit root).Invariant P next root := by
  obtain ⟨e, he, he', hinv⟩ := explore_agree (fun k => (.ok (next k) : Except Empty _)) hmoves (fun _ _ => rfl) limit
    hroot
  have heq : exploreAll next limit root = e := by rw [exploreAll, he']
  exact ⟨by rw [heq, he], heq ▸ hinv⟩

end Exploration
end PatternAutomata
