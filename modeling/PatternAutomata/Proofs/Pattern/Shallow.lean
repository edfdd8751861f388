import Mathlib.Data.List.Forall2
import Mathlib.Data.List.Induction
import PatternAutomata.Proofs.Pattern.Recognition
/-!
# Shallow — many patterns in a tree of little height

Joined by halves, patterns stand in the tree in their order, and it is higher than the highest of them by no more than
the logarithm of their number (`exists_balanced_shallow`).  The reader joins what it has taken off the stack: while a
branch is read, those before it wait below it, and each bar puts one more of them there (`steps_alternatives`).  So
branches with bars between them are read as the branches joined by halves (`read_alternatives`); where they are words,
the leaves of the tree are the words.
-/
namespace PatternAutomata
namespace Pattern

variable {join : Pattern → Pattern → Pattern} {p : Pattern} {ps : List Pattern} {w : Word} {stack : List Entry}
  {offset : Nat} {c : Char} {text : List Char} {texts : List (List Char)}

/-! ## Joining by halves -/

/-- The words and character sets that the tree is built from, from left to right. -/
def leaves : Pattern → List Pattern
  | word w => [word w]
  | seq head tail => head.leaves ++ tail.leaves
  | alt left right => left.leaves ++ right.leaves
  | star p => p.leaves
  | count p _ => p.leaves
  | oneOf intervals => [oneOf intervals]

theorem leaves_join_alt (g : Grouping Pattern) : (g.join alt).leaves = g.leaves.flatMap leaves := by
  induction g with
  | one p => exact (List.append_nil _).symm
  | pair left right ihl ihr => rw [Grouping.join, leaves, ihl, ihr, Grouping.leaves, List.flatMap_append]

theorem balanced_singleton : balanced join [p] = some p := by
  rw [balanced]
  rfl

/-- **Joined by halves, patterns stand in their order** and at most a logarithm of joins deep. -/
theorem exists_balanced_shallow (join : Pattern → Pattern → Pattern) (h : ps ≠ []) :
    ∃ g : Grouping Pattern, g.leaves = ps ∧ balanced join ps = some (g.join join) ∧
      g.depth ≤ Nat.clog 2 ps.length := by
  obtain ⟨p, hp⟩ := exists_balanced join h
  obtain ⟨g, hleaves, rfl, hdepth⟩ := Grouping.exists_shallow_of_balanced hp
  exact ⟨g, hleaves, hp, hdepth⟩

/-! ## Branches that wait -/

/-- What lies below a branch while the branches `ps` before it wait. -/
def waiting : List Pattern → List Entry
  | [] => []
  | p :: ps => [.branches (p :: ps).reverse]

theorem isFloor_waiting : ∀ ps, IsFloor (waiting ps)
  | [] => trivial
  | _ :: _ => trivial

/-- A bar puts the branch before it with those that wait. -/
theorem endBranch_waiting : ∀ {ps : List Pattern}, takeBranch stack = (some p, waiting ps) →
    endBranch offset stack = .ok (waiting (ps ++ [p]))
  | [], h => by rw [endBranch, h]; rfl
  | q :: ps, h => by
    rw [endBranch, h, List.cons_append, waiting, waiting, ← List.cons_append, List.reverse_append]
    rfl

/-- The end of the text joins the branch before it with those that wait. -/
theorem takeContent_waiting : ∀ {ps : List Pattern}, takeBranch stack = (some p, waiting ps) →
    takeContent offset stack = .ok (balanced alt (ps ++ [p]), [])
  | [], h => by rw [takeContent, h, List.nil_append, balanced_singleton]; rfl
  | q :: ps, h => by
    rw [takeContent, h, waiting]
    simp only [List.reverse_cons (a := p), List.reverse_reverse]

/-! ## Branches with bars between them -/

/-- On any floor the text is read as a branch that is taken off as `p`. -/
def TakenAs (text : List Char) (p : Pattern) : Prop :=
  ∀ stack offset, IsFloor stack → ∃ stack' offset',
    (Reader.mk stack .items offset).steps text = .ok ⟨stack', .items, offset'⟩ ∧ takeBranch stack' = (some p, stack)

theorem TakenAs.ne_nil (h : TakenAs text p) : text ≠ [] := by
  rintro rfl
  have hfloor : IsFloor [] := trivial
  obtain ⟨stack', offset', hsteps, htake⟩ := h [] 0 hfloor
  cases hsteps
  rw [takeBranch_of_isFloor hfloor] at htake
  cases htake

/-- **Branches with bars between them are joined with those that wait**, when their text has ended. -/
theorem steps_alternatives (h : List.Forall₂ TakenAs texts ps) (hne : texts ≠ []) (before : List Pattern)
    (offset : Nat) : ∃ stack' offset',
      (Reader.mk (waiting before) .items offset).steps (['|'].intercalate texts) = .ok ⟨stack', .items, offset'⟩ ∧
        ∀ endOffset, takeContent endOffset stack' = .ok (balanced alt (before ++ ps), []) := by
  induction h generalizing before offset with
  | nil => exact absurd rfl hne
  | @cons text p texts ps htext hrest ih =>
    obtain ⟨stack₁, offset₁, hsteps₁, htake⟩ := htext (waiting before) offset (isFloor_waiting before)
    cases hrest with
    | nil =>
      rw [List.intercalate_singleton]
      exact ⟨stack₁, offset₁, hsteps₁, fun _ => takeContent_waiting htake⟩
    | @cons next q texts ps hnext hlater =>
      obtain ⟨stack₂, offset₂, hsteps₂, hcontent⟩ :=
        ih (List.cons_ne_nil _ _) (before ++ [p]) (offset₁ + '|'.utf8Size)
      refine ⟨stack₂, offset₂, ?_, fun endOffset => ?_⟩
      · have hbar : Reader.next offset₁ stack₁ '|' .items = .ok (stack₁, .bar offset₁) := rfl
        have hbehind : ['|'].intercalate (next :: texts) ≠ [] := by
          cases texts with
          | nil => rw [List.intercalate_singleton]; exact hnext.ne_nil
          | cons => rw [List.intercalate_cons_cons]; simp
        rw [List.intercalate_cons_cons, List.append_assoc, Reader.steps_append_of_ok hsteps₁, List.singleton_append,
          Reader.steps_cons hbar, Reader.steps_bar (endBranch_waiting htake) hbehind, hsteps₂]
      · rw [hcontent, List.append_assoc, List.singleton_append]

/-- **Branches with bars between them are read as the branches joined by halves.** -/
theorem read_alternatives (h : List.Forall₂ TakenAs texts ps) (hp : balanced alt ps = some p) :
    read (['|'].intercalate texts) = .ok p := by
  have hne : texts ≠ [] := by
    rintro rfl
    cases h
    rw [balanced_nil] at hp
    cases hp
  obtain ⟨stack, offset, hsteps, hcontent⟩ := steps_alternatives h hne [] 0
  show (Reader.start.steps _).bind Reader.finish = _
  rw [Reader.start, show ([] : List Entry) = waiting [] from rfl, hsteps]
  show (takeContent offset stack).bind _ = _
  rw [hcontent, List.nil_append, hp]
  rfl

/-! ## Words -/

/-- A word on a floor is one growing word of its characters. -/
theorem steps_word (hstack : IsFloor stack) (offset : Nat) (hw : ∀ c ∈ w, c ∉ signs) (hne : w ≠ []) :
    ∃ last earlier offset',
      (Reader.mk stack .items offset).steps w = .ok ⟨.run last earlier :: stack, .items, offset'⟩ ∧
        (last :: earlier).reverse = w := by
  -- the reader adds the characters at the end of the word
  induction w using List.reverseRecOn with
  | nil => exact absurd rfl hne
  | append_singleton w c ih =>
    obtain ⟨hw, hc⟩ := List.forall_mem_append.1 hw
    have hread {stack offset} : Reader.next offset stack c .items = .ok (pushChar c stack, .items) :=
      readItem_of_not_sign (hc c List.mem_cons_self)
    by_cases hnil : w = []
    · subst hnil
      have hpush : pushChar c stack = .run c [] :: stack := by
        unfold pushChar
        split
        · exact hstack.elim
        · rfl
      exact ⟨c, [], offset + c.utf8Size, by rw [List.nil_append, Reader.steps_cons hread, hpush]; rfl, rfl⟩
    · obtain ⟨last, earlier, offset', hsteps, hreverse⟩ := ih hw hnil
      refine ⟨c, last :: earlier, offset' + c.utf8Size, ?_, by rw [List.reverse_cons, hreverse]⟩
      rw [Reader.steps_append_of_ok hsteps, Reader.steps_cons hread]
      rfl

theorem takenAs_word (hw : ∀ c ∈ w, c ∉ signs) (hne : w ≠ []) : TakenAs w (word w) := fun stack offset hstack => by
  obtain ⟨last, earlier, offset', hsteps, hreverse⟩ := steps_word hstack offset hw hne
  refine ⟨_, offset', hsteps, ?_⟩
  rw [takeBranch, takeItems, takeItems_of_isFloor hstack, hreverse]
  exact congrArg (·, stack) balanced_singleton

/-- **Joining by halves keeps the order, and the tree stays shallow.**  Whatever joins two patterns, the items in the
tree are the list; and if it adds at most one to the height of the higher of them, as `seq` and `alt` do, the tree is
higher than the highest item by no more than the logarithm of their number.  So words without signs and with bars
between them are read as the words joined by halves: the leaves are the words, and the height is logarithmic in their
number. -/
theorem balanced_shallow :
    (∀ (join : Pattern → Pattern → Pattern) (ps : List Pattern) (h : ps ≠ []), ∃ g : Grouping Pattern,
      g.leaves = ps ∧ balanced join ps = some (g.join join) ∧
        ((∀ p q, (join p q).height ≤ 1 + max p.height q.height) →
          (g.join join).height ≤ (ps.map height).max (mt List.map_eq_nil_iff.1 h) + Nat.clog 2 ps.length)) ∧
    ∀ words : List Word, words ≠ [] → (∀ w ∈ words, w ≠ [] ∧ ∀ c ∈ w, c ∉ signs) →
      ∃ p, read (['|'].intercalate words) = .ok p ∧ balanced alt (words.map word) = some p ∧
        p.leaves = words.map word ∧ p.height ≤ 1 + Nat.clog 2 words.length := by
  refine ⟨fun join ps h => ?_, fun words hne hwords => ?_⟩
  · obtain ⟨g, rfl, hbalanced, hdepth⟩ := exists_balanced_shallow join h
    refine ⟨g, rfl, hbalanced, fun hjoin => ?_⟩
    have hitems (p : Pattern) (hp : p ∈ g.leaves) : p.height ≤ (g.leaves.map height).max (mt List.map_eq_nil_iff.1 h) :=
      List.le_max_of_mem (List.mem_map_of_mem hp)
    have hheight := Grouping.join_le hjoin hitems
    omega
  · have hnodes : words.map word ≠ [] := mt List.map_eq_nil_iff.1 hne
    obtain ⟨g, hleaves, hbalanced, hdepth⟩ := exists_balanced_shallow alt hnodes
    have htaken : List.Forall₂ TakenAs words (words.map word) :=
      List.forall₂_map_right_iff.2 (List.forall₂_same.2 fun w hw => takenAs_word (hwords w hw).2 (hwords w hw).1)
    have hitems (p : Pattern) (hp : p ∈ g.leaves) : p.height ≤ 1 := by
      rw [hleaves] at hp
      obtain ⟨w, -, rfl⟩ := List.mem_map.1 hp
      exact Nat.le_refl 1
    refine ⟨g.join alt, read_alternatives htaken hbalanced, hbalanced, ?_, ?_⟩
    · rw [leaves_join_alt, hleaves, List.flatMap_map, List.map_eq_flatMap]
      rfl
    · have hjoin (p q : Pattern) : (alt p q).height ≤ 1 + max p.height q.height := Nat.le_refl _
      have hheight := Grouping.join_le hjoin hitems
      rw [List.length_map] at hdepth
      omega

/-- Three items in a sequence, the highest of height 2; and five words between bars. -/
theorem balanced_shallow_words :
    (∃ g : Grouping Pattern, g.leaves = [word ['a'], star (word ['b']), oneOf []] ∧
      balanced seq [word ['a'], star (word ['b']), oneOf []] = some (g.join seq) ∧ (g.join seq).height ≤ 4) ∧
    (∀ w ∈ [['d', 'o'], ['i', 'f'], ['-'], ['i', 'n'], ['é']], w ≠ [] ∧ ∀ c ∈ w, c ∉ signs) ∧
    ∃ p, read ['d', 'o', '|', 'i', 'f', '|', '-', '|', 'i', 'n', '|', 'é'] = .ok p ∧
      p.leaves = [word ['d', 'o'], word ['i', 'f'], word ['-'], word ['i', 'n'], word ['é']] ∧ p.height ≤ 4 := by
  obtain ⟨hjoined, hread⟩ := balanced_shallow
  have hwords : ∀ w ∈ [['d', 'o'], ['i', 'f'], ['-'], ['i', 'n'], ['é']], w ≠ [] ∧ ∀ c ∈ w, c ∉ signs := by simp [signs]
  refine ⟨?_, hwords, ?_⟩
  · obtain ⟨g, hleaves, hbalanced, hheight⟩ :=
      hjoined seq [word ['a'], star (word ['b']), oneOf []] (List.cons_ne_nil _ _)
    have hlog : Nat.clog 2 3 ≤ 2 := Nat.clog_le_of_le_pow (by decide)
    exact ⟨g, hleaves, hbalanced, (hheight fun _ _ => Nat.le_refl _).trans (Nat.add_le_add_left hlog 2)⟩
  · obtain ⟨p, hp, -, hleaves, hheight⟩ := hread _ (List.cons_ne_nil _ _) hwords
    have hlog : Nat.clog 2 5 ≤ 3 := Nat.clog_le_of_le_pow (by decide)
    exact ⟨p, hp, hleaves, hheight.trans (Nat.add_le_add_left hlog 1)⟩

end Pattern
end PatternAutomata
