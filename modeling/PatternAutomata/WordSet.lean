import PatternAutomata.Ascending
import PatternAutomata.Word
/-!
# WordSet — finite sets of words

A word set holds its words in ascending order, character by character, so two sets with the same words are equal
(`WordSet.ext`).
-/
namespace PatternAutomata

/-- A finite set of words. -/
structure WordSet where
  words : List Word
  ascending : Ascending words

namespace WordSet

instance : DecidableEq WordSet := fun s t =>
  if h : s.words = t.words then isTrue (by cases s; cases t; cases h; rfl)
  else isFalse fun e => h (e ▸ rfl)

instance : Membership Word WordSet := ⟨fun s w => w ∈ s.words⟩

theorem mem_def {s : WordSet} {w : Word} : w ∈ s ↔ w ∈ s.words := Iff.rfl

/-- **Sets with the same words are equal.** -/
@[ext] theorem ext {s t : WordSet} (h : ∀ w, w ∈ s ↔ w ∈ t) : s = t := by
  cases s with | mk v hv =>
  cases t with | mk w hw =>
  cases Ascending.ext hv hw h
  rfl

def ofList (words : List Word) : WordSet := ⟨PatternAutomata.ascending words, Ascending.ascending words⟩

@[simp] theorem mem_ofList {words : List Word} {w : Word} : w ∈ ofList words ↔ w ∈ words :=
  Ascending.mem_ascending

def emptyWord : WordSet := ⟨[[]], Ascending.singleton []⟩

@[simp] theorem mem_emptyWord {w : Word} : w ∈ emptyWord ↔ w = [] := List.mem_singleton

def size (s : WordSet) : Nat := s.words.length

theorem size_ofList_le (words : List Word) : (ofList words).size ≤ words.length := length_ascending_le words

def isEmpty (s : WordSet) : Bool := s.words.isEmpty

def union (s t : WordSet) : WordSet := ofList (s.words ++ t.words)

@[simp] theorem mem_union {s t : WordSet} {w : Word} : w ∈ s.union t ↔ w ∈ s ∨ w ∈ t :=
  mem_ofList.trans List.mem_append

/-- The words of `s`, each followed by each word of `t`. -/
def product (s t : WordSet) : WordSet := ofList (s.words.flatMap fun v => t.words.map (v ++ ·))

theorem mem_product {s t : WordSet} {w : Word} : w ∈ s.product t ↔ ∃ u ∈ s, ∃ v ∈ t, u ++ v = w := by
  rw [product, mem_ofList, List.mem_flatMap]
  exact exists_congr fun u => and_congr_right fun _ => List.mem_map

theorem size_product_le (s t : WordSet) : (s.product t).size ≤ s.size * t.size := by
  refine Nat.le_trans (size_ofList_le _) (Nat.le_of_eq ?_)
  rw [List.length_flatMap]
  simp only [List.length_map, List.map_const', List.sum_replicate_nat]
  rfl

/-- The length of the shortest word; 0 if there is none. -/
def shortest (s : WordSet) : Nat := ((s.words.map List.length).min?).getD 0

def total (s : WordSet) : Nat := s.words.flatten.length

end WordSet
end PatternAutomata
