import PatternAutomata.Proofs.Dfa.Run
import PatternAutomata.Proofs.Exploration
/-!
# Explored — automata numbered by a breadth-first search

An automaton made from an exploration is the explored graph with numbers for nodes (`explored_ofExploration`): it has a
move on a character where the graph has one.  Its numbering is breadth first (`BreadthFirst`), a property of its moves
alone that says nothing of how they are cut into intervals.
-/
namespace PatternAutomata
namespace Dfa

variable {κ : Type}

/-- The states are numbered in the order in which a breadth-first search meets them that takes the characters in
order. -/
structure BreadthFirst (d : Dfa) : Prop where
  discovered : ∀ j, 0 < j → j < d.size → ∃ i, i < j ∧ ∃ c, (d.state i).next? c = some j
  in_order : ∀ i c j k, (d.state i).next? c = some k → 0 < j → j < k →
    (∃ p, p < i ∧ ∃ b, (d.state p).next? b = some j) ∨ ∃ b, b < c ∧ (d.state i).next? b = some j

/-- Some word leads from the root to each state. -/
theorem BreadthFirst.exists_run {d : Dfa} (hd : d.BreadthFirst) (i : Nat) (hi : i < d.size) :
    ∃ u, d.run? 0 u = some i := by
  induction i using Nat.strongRecOn with
  | ind i ih =>
    by_cases h : i = 0
    · exact ⟨[], by rw [h]; rfl⟩
    · obtain ⟨p, hp, c, hc⟩ := hd.discovered i (Nat.pos_of_ne_zero h) hi
      obtain ⟨u, hu⟩ := ih p hp (Nat.lt_trans hp hi)
      exact ⟨u ++ [c], by rw [run?_append, hu, Option.bind_some, run?_cons, hc]; rfl⟩

/-- The states of `d` are the nodes of a graph with the moves `next`, numbered as in `keys`. -/
structure Explored (P : κ → Prop) (next : κ → List (Interval × κ)) (accepting : κ → Bool) (root : κ) (keys : Array κ)
    (d : Dfa) : Prop where
  size_eq : d.size = keys.size
  root_eq : keys[0]? = some root
  holds : ∀ (i : Nat) (k : κ), keys[i]? = some k → P k
  injective : ∀ (i j : Nat) (k : κ), keys[i]? = some k → keys[j]? = some k → i = j
  accepting_eq : ∀ (i : Nat) (k : κ), keys[i]? = some k → (d.state i).accepting = accepting k
  moves_eq : ∀ (i : Nat) (k : κ), keys[i]? = some k →
    (d.state i).moves.toList.map (fun m => (m.1, keys[m.2]?)) = (next k).map fun m => (m.1, some m.2)
  ordered : ∀ i, (d.state i).Ordered

namespace Explored

variable {P : κ → Prop} {next : κ → List (Interval × κ)} {accepting : κ → Bool} {root : κ} {keys : Array κ} {d : Dfa}
  {i j : Nat} {k : κ} {c : Char}

theorem exists_key (h : d.Explored P next accepting root keys) (hi : i < d.size) : ∃ k, keys[i]? = some k :=
  ⟨_, Array.getElem?_eq_getElem (h.size_eq ▸ hi)⟩

theorem lt_size (h : d.Explored P next accepting root keys) (hk : keys[i]? = some k) : i < d.size :=
  h.size_eq ▸ (Array.getElem?_eq_some_iff.1 hk).1

/-- **The automaton has a move where the graph has one.** -/
theorem next?_iff (h : d.Explored P next accepting root keys) (hk : keys[i]? = some k) :
    (d.state i).next? c = some j ↔ ∃ m ∈ next k, c ∈ m.1 ∧ keys[j]? = some m.2 := by
  rw [State.next?_eq_some (h.ordered i)]
  constructor
  · rintro ⟨m, hm, hc, rfl⟩
    obtain ⟨x, hx, hmem⟩ := exists_of_mem_row (h.moves_eq i k hk) (Array.mem_toList_iff.2 hm)
    exact ⟨_, hmem, hc, hx⟩
  · rintro ⟨m, hm, hc, hj⟩
    obtain ⟨l, hl, hmem⟩ := exists_mem_row_of_mem (h.moves_eq i k hk) hm
    exact ⟨_, Array.mem_toList_iff.1 hmem, hc, h.injective _ _ _ hl hj⟩

/-- What a move of the automaton leads to is what the graph's move leads to. -/
theorem next?_bind_iff (h : d.Explored P next accepting root keys) (hk : keys[i]? = some k) {l : κ} :
    ((d.state i).next? c).bind (keys[·]?) = some l ↔ ∃ m ∈ next k, c ∈ m.1 ∧ m.2 = l := by
  constructor
  · intro hl
    obtain ⟨j, hj, hl⟩ := Option.bind_eq_some_iff.1 hl
    obtain ⟨m, hm, hc, hjm⟩ := (h.next?_iff hk).1 hj
    exact ⟨m, hm, hc, Option.some.inj (hjm.symm.trans hl)⟩
  · rintro ⟨m, hm, hc, rfl⟩
    obtain ⟨j, hj, -⟩ := exists_mem_row_of_mem (h.moves_eq i k hk) hm
    rw [(h.next?_iff hk).2 ⟨m, hm, hc, hj⟩]
    exact hj

theorem wellFormed (h : d.Explored P next accepting root keys) : d.WellFormed where
  size_pos := h.lt_size h.root_eq
  ordered := h.ordered
  target_lt i m hm := by
    have hi : i < d.size := Nat.lt_of_not_le fun hle => by
      rw [state_of_size_le hle] at hm
      cases hm with | mk hm => cases hm
    obtain ⟨k, hk⟩ := h.exists_key hi
    have hnext : (d.state i).next? m.1.lo = some m.2 :=
      (State.next?_eq_some (h.ordered i)).2 ⟨m, hm, m.1.lo_mem, rfl⟩
    obtain ⟨l, -, -, hl⟩ := (h.next?_iff hk).1 hnext
    exact h.lt_size hl

end Explored

/-! ## Automata made from explorations -/

variable [Ord κ] {P : κ → Prop} {next : κ → List (Interval × κ)} {root : κ}
  {e : Exploration κ Interval} {i : Nat} {k : κ}

theorem size_ofExploration (accepting : κ → Bool) (hfull : e.rows.size = e.found.keys.size) :
    (ofExploration accepting e).size = e.found.keys.size := by
  simp [ofExploration, size, hfull]

theorem state_ofExploration (accepting : κ → Bool) {row : List (Interval × Nat)} (hk : e.found.keys[i]? = some k)
    (hrow : e.rows[i]? = some row) : (ofExploration accepting e).state i = ⟨accepting k, row.toArray⟩ := by
  rw [state, ofExploration, Array.getD_eq_getD_getElem?, Array.getElem?_map,
    Array.getElem?_zip_eq_some (z := (k, row)) |>.2 ⟨hk, hrow⟩]
  rfl

/-- **What the automaton of an exploration is.** -/
theorem explored_ofExploration (accepting : κ → Bool) (h : e.Invariant P next root)
    (hfull : e.rows.size = e.found.keys.size)
    (hordered : ∀ k, P k → (next k).Pairwise fun m l => m.1.stop ≤ l.1.start) :
    (ofExploration accepting e).Explored P next accepting root e.found.keys := by
  have hrow {i : Nat} {k : κ} (hk : e.found.keys[i]? = some k) : ∃ row, e.rows[i]? = some row :=
    ⟨_, Array.getElem?_eq_getElem (hfull ▸ (Array.getElem?_eq_some_iff.1 hk).1)⟩
  refine ⟨size_ofExploration accepting hfull, h.root_eq, h.holds, fun i j k => Numbering.eq_of_getElem?,
    fun i k hk => ?_, fun i k hk => ?_, fun i => ?_⟩
  · obtain ⟨row, hr⟩ := hrow hk
    rw [state_ofExploration accepting hk hr]
  · obtain ⟨row, hr⟩ := hrow hk
    rw [state_ofExploration accepting hk hr]
    exact h.row_eq i k row hk hr
  · by_cases hi : i < e.found.keys.size
    · have hk := Array.getElem?_eq_getElem hi
      obtain ⟨row, hr⟩ := hrow hk
      rw [state_ofExploration accepting hk hr, State.Ordered, ← List.pairwise_map (f := Prod.fst)
        (R := fun m l : Interval => m.stop ≤ l.start)]
      change (row.map Prod.fst).Pairwise _
      rw [h.labels_eq hk hr, List.pairwise_map]
      exact hordered _ (h.holds i _ hk)
    · rw [state_of_size_le (by rw [size_ofExploration accepting hfull]; exact Nat.not_lt.1 hi)]
      exact List.Pairwise.nil

/-- **The numbering is breadth first.** -/
theorem breadthFirst_ofExploration (accepting : κ → Bool) (h : e.Invariant P next root)
    (hfull : e.rows.size = e.found.keys.size)
    (hordered : ∀ k, P k → (next k).Pairwise fun m l => m.1.stop ≤ l.1.start) :
    (ofExploration accepting e).BreadthFirst := by
  have hex := explored_ofExploration accepting h hfull hordered
  -- a move of the exploration is one of the automaton, on any of its label's characters
  have hleads {p j : Nat} (hp : e.Leads p j) : ∃ b, ((ofExploration accepting e).state p).next? b = some j := by
    obtain ⟨row, hr, m, hm, rfl⟩ := hp
    have hk := Array.getElem?_eq_getElem (hfull ▸ (Array.getElem?_eq_some_iff.1 hr).1)
    obtain ⟨x, hx, hmem⟩ := h.mem_row hk hr hm
    exact ⟨m.1.lo, (hex.next?_iff hk).2 ⟨_, hmem, m.1.lo_mem, hx⟩⟩
  refine ⟨fun j hj hlt => ?_, fun i c j k hnext hj hjk => ?_⟩
  · obtain ⟨i, hij, hi⟩ := h.discovered j hj (hex.size_eq ▸ hlt)
    exact ⟨i, hij, hleads hi⟩
  · have hi : i < e.found.keys.size := Nat.lt_of_not_le fun hle => by
      rw [state_of_size_le (hex.size_eq ▸ hle)] at hnext
      obtain ⟨m, hm, -⟩ := (State.next?_eq_some (by exact List.Pairwise.nil)).1 hnext
      cases hm with | mk hm => cases hm
    have hk := Array.getElem?_eq_getElem hi
    obtain ⟨row, hr⟩ : ∃ row, e.rows[i]? = some row := ⟨_, Array.getElem?_eq_getElem (hfull ▸ hi)⟩
    have hstate := state_ofExploration accepting hk hr
    have hord := hex.ordered i
    rw [hstate] at hnext hord ⊢
    obtain ⟨m, hm, hc, rfl⟩ := (State.next?_eq_some hord).1 hnext
    obtain ⟨pre, post, rfl⟩ := List.append_of_mem (by simpa using hm : m ∈ row)
    rcases h.in_order i pre m post hr j hj hjk with ⟨p, hp, hpj⟩ | ⟨l, hl, rfl⟩
    · exact .inl ⟨p, hp, hleads hpj⟩
    · refine .inr ⟨l.1.lo, ?_, (State.next?_eq_some hord).2 ⟨l, by simp [hl], l.1.lo_mem, rfl⟩⟩
      have hstop : l.1.stop ≤ m.1.start := (List.pairwise_append.1 hord).2.2 l hl m List.mem_cons_self
      have hlo := (Interval.mem_iff_ordinal.1 l.1.lo_mem).2
      have hcm := (Interval.mem_iff_ordinal.1 hc).1
      rw [Char.lt_iff_ordinal_lt, Fin.lt_def]
      omega

end Dfa
end PatternAutomata
