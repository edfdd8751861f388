import PatternAutomata.Pattern.Reader
import PatternAutomata.Proofs.Pattern.Interchangeable
/-!
# Stack — what the reader's entries stand for

The items on top of the stack are one branch.  Below them is the floor, an open group, an alternation that waits for its
next branch, or nothing at all.  However the items are glued and joined when they are taken off, the result is
interchangeable with the items in a row (`takeBranch_of_items`), and the branches of an alternation are taken together
the same way.
-/
namespace PatternAutomata
namespace Pattern

variable {p : Pattern} {ps qs : List Pattern} {stack stack' rest : List Entry} {offset : Nat}

/-- Two words in a row may be made one. -/
theorem interchangeable_glue : (joined seq (glue p ps)).Interchangeable (joined seq (p :: ps)) := by
  unfold glue
  split
  · rename_i v w ps
    by_cases hps : ps = []
    · rw [hps]
      exact interchangeable_word_append.symm
    · rw [joined_cons hps, joined_cons (List.cons_ne_nil _ _), joined_cons hps]
      exact (interchangeable_word_append.symm.seq (.refl _)).trans interchangeable_seq_assoc
  · exact .refl _

theorem exists_balanced (join : Pattern → Pattern → Pattern) (h : ps ≠ []) : ∃ p, balanced join ps = some p :=
  Option.isSome_iff_exists.1 (balanced_isSome join h)

/-! ## The floor -/

/-- No item lies on top. -/
def IsFloor : List Entry → Prop
  | .item _ :: _ => False
  | .run _ _ :: _ => False
  | _ => True

/-- No item lies on top, and no alternation either. -/
def Grounded : List Entry → Prop
  | [] => True
  | .group _ :: _ => True
  | _ => False

/-- What stands below the items on top. -/
def floor : List Entry → List Entry
  | .item _ :: stack => floor stack
  | .run _ _ :: stack => floor stack
  | stack => stack

/-- The items on top, in the order in which they were read. -/
def held : List Entry → List Pattern
  | .item p :: stack => held stack ++ [p]
  | .run last earlier :: stack => held stack ++ [word (last :: earlier).reverse]
  | _ => []

/-- What stands below the branches on top. -/
def ground (stack : List Entry) : List Entry :=
  match floor stack with
  | .branches _ :: rest => rest
  | rest => rest

/-- The branches on top, the last of them in a row of its items. -/
def offered (stack : List Entry) : List Pattern :=
  match floor stack with
  | .branches ps :: _ => ps.reverse ++ [joined seq (held stack)]
  | _ => [joined seq (held stack)]

theorem Grounded.isFloor : ∀ {stack : List Entry}, Grounded stack → IsFloor stack
  | [], _ => trivial
  | .group _ :: _, _ => trivial

theorem isFloor_cases : ∀ {stack : List Entry}, IsFloor stack → Grounded stack ∨ ∃ ps rest, stack = .branches ps :: rest
  | [], _ => .inl trivial
  | .group _ :: _, _ => .inl trivial
  | .branches ps :: rest, _ => .inr ⟨ps, rest, rfl⟩

theorem isFloor_of_ne (hitem : ∀ p rest, stack = .item p :: rest → False)
    (hrun : ∀ last earlier rest, stack = .run last earlier :: rest → False) : IsFloor stack := by
  cases stack with
  | nil => trivial
  | cons e stack =>
    cases e with
    | item p => exact hitem _ _ rfl
    | run last earlier => exact hrun _ _ _ rfl
    | group offset => trivial
    | branches ps => trivial

theorem isFloor_floor (stack : List Entry) : IsFloor (floor stack) := by
  fun_induction floor stack with
  | case1 _ _ ih => exact ih
  | case2 _ _ _ ih => exact ih
  | case3 stack hitem hrun => exact isFloor_of_ne hitem hrun

theorem floor_of_isFloor : ∀ {stack : List Entry}, IsFloor stack → floor stack = stack
  | [], _ => rfl
  | .group _ :: _, _ => rfl
  | .branches _ :: _, _ => rfl

theorem held_of_isFloor : ∀ {stack : List Entry}, IsFloor stack → held stack = []
  | [], _ => rfl
  | .group _ :: _, _ => rfl
  | .branches _ :: _, _ => rfl

theorem held_ne_nil (h : ¬IsFloor stack) : held stack ≠ [] := by
  fun_cases held stack with
  | case1 => exact List.append_ne_nil_of_right_ne_nil _ (List.cons_ne_nil _ _)
  | case2 => exact List.append_ne_nil_of_right_ne_nil _ (List.cons_ne_nil _ _)
  | case3 stack hitem hrun => exact absurd (isFloor_of_ne hitem hrun) h

theorem ground_of_branches (h : floor stack = .branches ps :: rest) : ground stack = rest := by
  rw [ground, h]

theorem offered_of_branches (h : floor stack = .branches ps :: rest) :
    offered stack = ps.reverse ++ [joined seq (held stack)] := by
  rw [offered, h]

theorem ground_of_grounded (h : Grounded (floor stack)) : ground stack = floor stack := by
  rw [ground]
  split
  · rename_i heq
    rw [heq] at h
    cases h
  · rfl

theorem offered_of_grounded (h : Grounded (floor stack)) : offered stack = [joined seq (held stack)] := by
  rw [offered]
  split
  · rename_i heq
    rw [heq] at h
    cases h
  · rfl

/-! ## The operand of a repetition -/

/-- `stack'` is `stack` with `p` on top of it, as the operand of a repetition sign. -/
inductive Tops : List Entry → Pattern → List Entry → Prop
  | item (p : Pattern) (rest : List Entry) : Tops rest p (.item p :: rest)
  | letter (c : Char) (rest : List Entry) : Tops rest (word [c]) (.run c [] :: rest)
  | last (c d : Char) (earlier : List Char) (rest : List Entry) :
      Tops (.run d earlier :: rest) (word [c]) (.run c (d :: earlier) :: rest)

theorem takeOperand_eq_ok {sign : Char} : takeOperand sign offset stack' = .ok (p, stack) ↔ Tops stack p stack' := by
  constructor
  · intro h
    unfold takeOperand at h
    split at h <;> cases h
    · exact .item _ _
    · exact .letter _ _
    · exact .last _ _ _ _
  · intro h
    cases h <;> rfl

theorem tops_pushChar (c : Char) (stack : List Entry) : Tops stack (word [c]) (pushChar c stack) := by
  unfold pushChar
  split
  · exact .last _ _ _ _
  · exact .letter _ _

theorem Tops.not_isFloor (h : Tops stack p stack') : ¬IsFloor stack' := by
  cases h <;> exact id

theorem Tops.floor_eq (h : Tops stack p stack') : floor stack' = floor stack := by
  cases h <;> rfl

theorem Tops.held (h : Tops stack p stack') :
    (joined seq (held stack')).Interchangeable (joined seq (held stack ++ [p])) := by
  cases h with
  | item => exact .refl _
  | letter => exact .refl _
  | last c d earlier rest =>
    rw [Pattern.held, Pattern.held, List.append_assoc]
    refine joins_seq.append_congr (List.cons_ne_nil _ _) (List.cons_ne_nil _ _) ?_
    rw [List.reverse_cons]
    exact interchangeable_word_append.symm

/-! ## Taking branches off -/

theorem takeItems_snd : (takeItems ps stack).2 = floor stack := by
  fun_induction takeItems ps stack with
  | case1 _ _ _ ih => exact ih
  | case2 _ _ _ _ ih => exact ih
  | case3 ps stack hitem hrun => exact (floor_of_isFloor (isFloor_of_ne hitem hrun)).symm

/-- The items taken off, in a row, are those on top before the ones taken already. -/
theorem interchangeable_takeItems :
    (joined seq (takeItems ps stack).1).Interchangeable (joined seq (held stack ++ ps)) := by
  fun_induction takeItems ps stack with
  | case1 ps p stack ih =>
    rw [held, List.append_assoc]
    exact ih.trans (joins_seq.append_congr glue_ne_nil (List.cons_ne_nil _ _) interchangeable_glue)
  | case2 ps last earlier stack ih =>
    rw [held, List.append_assoc]
    exact ih.trans (joins_seq.append_congr glue_ne_nil (List.cons_ne_nil _ _) interchangeable_glue)
  | case3 ps stack hitem hrun =>
    rw [held_of_isFloor (isFloor_of_ne hitem hrun)]
    exact .refl _

theorem takeItems_ne_nil_of_items (h : ¬IsFloor stack) : (takeItems ps stack).1 ≠ [] := by
  unfold takeItems
  split
  · exact takeItems_ne_nil glue_ne_nil
  · exact takeItems_ne_nil glue_ne_nil
  · rename_i hitem hrun
    exact absurd (isFloor_of_ne hitem hrun) h

theorem takeItems_of_isFloor : ∀ {stack : List Entry}, IsFloor stack → takeItems ps stack = (ps, stack)
  | [], _ => rfl
  | .group _ :: _, _ => rfl
  | .branches _ :: _, _ => rfl

theorem takeBranch_of_isFloor (h : IsFloor stack) : takeBranch stack = (none, stack) := by
  simp only [takeBranch, takeItems_of_isFloor h, balanced_nil]

/-- Items on top are taken off as one pattern, and nothing below them is touched. -/
theorem takeBranch_of_items (h : ¬IsFloor stack) :
    ∃ p, takeBranch stack = (some p, floor stack) ∧ p.Interchangeable (joined seq (held stack)) := by
  have hne : (takeItems [] stack).1 ≠ [] := takeItems_ne_nil_of_items h
  obtain ⟨p, hp⟩ := exists_balanced seq hne
  have htaken : (joined seq (takeItems [] stack).1).Interchangeable (joined seq (held stack)) := by
    have happend := @interchangeable_takeItems [] stack
    rwa [List.append_nil] at happend
  exact ⟨p, Prod.ext hp takeItems_snd, (joins_seq.balanced hp).trans htaken⟩

theorem takeContent_eq {content : Option Pattern} : ∀ {rest : List Entry}, Grounded rest →
    takeBranch stack = (content, rest) → takeContent offset stack = .ok (content, rest)
  | [], _, h => by rw [takeContent, h]; cases content <;> rfl
  | .group _ :: _, _, h => by rw [takeContent, h]; cases content <;> rfl

theorem takeContent_of_grounded (h : Grounded stack) : takeContent offset stack = .ok (none, stack) :=
  takeContent_eq h (takeBranch_of_isFloor h.isFloor)

theorem takeContent_open : takeContent offset (.branches ps :: rest) = .error ⟨.emptyBranch, offset⟩ := by
  have h : IsFloor (.branches ps :: rest) := trivial
  rw [takeContent, takeBranch_of_isFloor h]

/-- Branches on top are taken off as one pattern. -/
theorem takeContent_of_items (h : ¬IsFloor stack) :
    ∃ p, takeContent offset stack = .ok (some p, ground stack) ∧ p.Interchangeable (joined alt (offered stack)) := by
  obtain ⟨last, htake, hlast⟩ := takeBranch_of_items h
  rcases isFloor_cases (isFloor_floor stack) with hground | ⟨ps, rest, hbranches⟩
  · refine ⟨last, ?_, ?_⟩
    · rw [takeContent_eq hground htake, ground_of_grounded hground]
    · rw [offered_of_grounded hground]
      exact hlast
  · have hne : (last :: ps).reverse ≠ [] := by simp
    obtain ⟨p, hp⟩ := exists_balanced alt hne
    refine ⟨p, ?_, (joins_alt.balanced hp).trans ?_⟩
    · rw [takeContent, htake, hbranches, ground_of_branches hbranches, ← hp]
    · rw [offered_of_branches hbranches, List.reverse_cons]
      exact joins_alt.append_congr (List.cons_ne_nil _ _) (List.cons_ne_nil _ _) hlast

theorem endBranch_of_isFloor : ∀ {stack : List Entry}, IsFloor stack → ∃ e, endBranch offset stack = .error e
  | [], h => ⟨_, by rw [endBranch, takeBranch_of_isFloor h]⟩
  | .group _ :: _, h => ⟨_, by rw [endBranch, takeBranch_of_isFloor h]⟩
  | .branches _ :: _, h => ⟨_, by rw [endBranch, takeBranch_of_isFloor h]⟩

theorem endBranch_eq : ∀ {rest : List Entry}, Grounded rest → takeBranch stack = (some p, rest) →
    endBranch offset stack = .ok (.branches [p] :: rest)
  | [], _, h => by rw [endBranch, h]
  | .group _ :: _, _, h => by rw [endBranch, h]

/-- The branches on top wait for the next one. -/
theorem endBranch_of_items (h : ¬IsFloor stack) :
    ∃ ps, endBranch offset stack = .ok (.branches ps :: ground stack) ∧ ps ≠ [] ∧
      (joined alt ps.reverse).Interchangeable (joined alt (offered stack)) := by
  obtain ⟨last, htake, hlast⟩ := takeBranch_of_items h
  rcases isFloor_cases (isFloor_floor stack) with hground | ⟨ps, rest, hbranches⟩
  · refine ⟨[last], ?_, List.cons_ne_nil _ _, ?_⟩
    · rw [endBranch_eq hground htake, ground_of_grounded hground]
    · rw [offered_of_grounded hground]
      exact hlast
  · refine ⟨last :: ps, ?_, List.cons_ne_nil _ _, ?_⟩
    · rw [endBranch, htake, hbranches, ground_of_branches hbranches]
    · rw [offered_of_branches hbranches, List.reverse_cons]
      exact joins_alt.append_congr (List.cons_ne_nil _ _) (List.cons_ne_nil _ _) hlast

end Pattern
end PatternAutomata
