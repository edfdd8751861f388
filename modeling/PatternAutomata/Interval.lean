import PatternAutomata.Fault
/-!
# Interval — closed intervals of characters

An interval holds the characters from `lo` to `hi`, both included, and is never empty.  Its place in the alphabet is
measured in ordinals, which count the characters without the surrogates between D7FF and E000: an interval takes up the
ordinals from `start` up to, but not including, `stop`, so it may reach across the surrogates as if they were not there,
and two intervals are neighbours when the stop of one is the start of the other.
-/
namespace PatternAutomata

structure Interval where
  lo : Char
  hi : Char
  lo_le_hi : lo ≤ hi
deriving DecidableEq

namespace Interval

@[ext] theorem ext {i j : Interval} (hlo : i.lo = j.lo) (hhi : i.hi = j.hi) : i = j := by
  cases i; cases j; cases hlo; cases hhi; rfl

def single (c : Char) : Interval := ⟨c, c, Char.le_refl c⟩

/-- The interval between two characters given in order. -/
def ofBounds (lo hi : Char) : Except Fault Interval :=
  if h : lo ≤ hi then .ok ⟨lo, hi, h⟩ else .error (.reversedInterval lo hi)

/-- Whether `c` lies in the interval. -/
def contains (i : Interval) (c : Char) : Bool := i.lo ≤ c && c ≤ i.hi

instance : Membership Char Interval := ⟨fun i c => i.lo ≤ c ∧ c ≤ i.hi⟩

theorem mem_def {i : Interval} {c : Char} : c ∈ i ↔ i.lo ≤ c ∧ c ≤ i.hi := Iff.rfl

instance (c : Char) (i : Interval) : Decidable (c ∈ i) := by rw [mem_def]; infer_instance

@[simp] theorem contains_iff {i : Interval} {c : Char} : i.contains c = true ↔ c ∈ i := by
  simp [contains, mem_def]

theorem lo_mem (i : Interval) : i.lo ∈ i := ⟨Char.le_refl _, i.lo_le_hi⟩

theorem hi_mem (i : Interval) : i.hi ∈ i := ⟨i.lo_le_hi, Char.le_refl _⟩

@[simp] theorem mem_single {c d : Char} : d ∈ single c ↔ d = c :=
  ⟨fun h => Char.le_antisymm h.2 h.1, fun h => h ▸ lo_mem (single c)⟩

/-- The ordinal of the first member. -/
def start (i : Interval) : Nat := i.lo.ordinal

/-- The ordinal behind the last member. -/
def stop (i : Interval) : Nat := i.hi.ordinal + 1

theorem start_lt_stop (i : Interval) : i.start < i.stop :=
  Nat.lt_succ_of_le (Char.le_iff_ordinal_le.1 i.lo_le_hi)

theorem stop_le (i : Interval) : i.stop ≤ Char.numCodePoints := i.hi.ordinal.isLt

/-- One interval stops before another starts exactly when its last character comes before the other's first. -/
theorem stop_le_start_iff {i j : Interval} : i.stop ≤ j.start ↔ i.hi < j.lo := by
  rw [Char.lt_iff_ordinal_lt, Fin.lt_def]
  exact Nat.succ_le_iff

/-- **Membership by ordinals.** -/
theorem mem_iff_ordinal {i : Interval} {c : Char} : c ∈ i ↔ i.start ≤ c.ordinal ∧ c.ordinal < i.stop := by
  rw [mem_def, Char.le_iff_ordinal_le, Char.le_iff_ordinal_le, stop, Nat.lt_succ_iff]
  exact Iff.rfl

/-- The characters with ordinals from `start` up to, but not including, `stop`, if there is any. -/
def ofOrdinals? (start stop : Nat) : Option Interval :=
  if h : start < stop ∧ stop ≤ Char.numCodePoints then
    some ⟨Char.ofOrdinal ⟨start, by omega⟩, Char.ofOrdinal ⟨stop - 1, by omega⟩,
      Char.le_iff_ofOrdinal_le.1 (Nat.le_sub_one_of_lt h.1)⟩
  else none

theorem ofOrdinals?_eq_some {a b : Nat} {i : Interval} : ofOrdinals? a b = some i ↔ i.start = a ∧ i.stop = b := by
  unfold ofOrdinals?
  constructor
  · intro h
    split at h
    · rename_i hab
      cases h
      exact ⟨by simp [start], by simp [stop]; omega⟩
    · cases h
  · rintro ⟨rfl, rfl⟩
    rw [dif_pos ⟨i.start_lt_stop, i.stop_le⟩]
    exact congrArg some (ext (by simp [start]) (by simp [stop]))

def isSingle (i : Interval) : Bool := i.lo == i.hi

def size (i : Interval) : Nat := i.stop - i.start

/-- The sizes of several intervals together; what two of them share is counted twice. -/
def totalSize : List Interval → Nat
  | [] => 0
  | i :: is => i.size + totalSize is

/-- Whether there is no member; there always is one. -/
def isEmpty (i : Interval) : Bool := i.size == 0

@[simp] theorem isEmpty_eq_false (i : Interval) : i.isEmpty = false := by
  have := i.start_lt_stop
  simp only [isEmpty, size, beq_eq_false_iff_ne]
  omega

/-- The first members in order, at most `n`. -/
def firstChars (i : Interval) (n : Nat) : List Char := (List.range (min n i.size)).filterMap i.lo.succMany?

/-- The members in order. -/
def chars (i : Interval) : List Char := i.firstChars i.size

theorem succMany?_eq_some {c d : Char} {n : Nat} : c.succMany? n = some d ↔ (c.ordinal : Nat) + n = d.ordinal := by
  rw [Char.succMany?_eq, Option.map_eq_some_iff]
  constructor
  · rintro ⟨f, hf, rfl⟩
    rw [Char.ordinal_ofOrdinal]
    exact (Fin.addNat?_eq_some_iff.1 hf).2.symm
  · intro h
    exact ⟨d.ordinal, Fin.addNat?_eq_some_iff.2 ⟨h ▸ d.ordinal.isLt, h.symm⟩, Char.ofOrdinal_ordinal⟩

theorem mem_chars {i : Interval} {c : Char} : c ∈ i.chars ↔ c ∈ i := by
  rw [mem_iff_ordinal, chars, firstChars, Nat.min_self, List.mem_filterMap]
  constructor
  · rintro ⟨k, hk, h⟩
    rw [List.mem_range, size] at hk
    have h : i.start + k = c.ordinal := succMany?_eq_some.1 h
    omega
  · rintro ⟨h₁, h₂⟩
    exact ⟨c.ordinal - i.start, List.mem_range.2 (Nat.sub_lt_sub_right h₁ h₂),
      succMany?_eq_some.2 (Nat.add_sub_cancel' h₁)⟩

theorem length_chars_le (i : Interval) : i.chars.length ≤ i.size := by
  refine Nat.le_trans (List.length_filterMap_le _ _) ?_
  rw [List.length_range]
  exact Nat.min_le_left _ _

theorem length_flatMap_chars_le : ∀ intervals : List Interval, (intervals.flatMap chars).length ≤ totalSize intervals
  | [] => Nat.le_refl 0
  | i :: is => by
    rw [List.flatMap_cons, List.length_append]
    exact Nat.add_le_add i.length_chars_le (length_flatMap_chars_le is)

def Covers (intervals : List Interval) (c : Char) : Prop := ∃ i ∈ intervals, c ∈ i

@[simp] theorem not_covers_nil {c : Char} : ¬ Covers [] c := fun ⟨_, h, _⟩ => (nomatch h)

@[simp] theorem covers_cons {i : Interval} {is : List Interval} {c : Char} :
    Covers (i :: is) c ↔ c ∈ i ∨ Covers is c := by
  constructor
  · rintro ⟨k, hk, hc⟩
    rcases List.mem_cons.1 hk with rfl | hk
    · exact .inl hc
    · exact .inr ⟨k, hk, hc⟩
  · rintro (hc | ⟨k, hk, hc⟩)
    · exact ⟨i, List.mem_cons_self, hc⟩
    · exact ⟨k, List.mem_cons_of_mem _ hk, hc⟩

/-- The smallest interval around two. -/
def span (i j : Interval) : Interval where
  lo := if i.lo ≤ j.lo then i.lo else j.lo
  hi := if i.hi ≤ j.hi then j.hi else i.hi
  lo_le_hi := by
    have hi := i.lo_le_hi
    have hj := j.lo_le_hi
    have total (a b : Char) (h : ¬ a ≤ b) : b ≤ a := (Char.le_total a b).resolve_left h
    split <;> split
    · exact Char.le_trans hi ‹_›
    · exact hi
    · exact hj
    · exact Char.le_trans hj (total _ _ ‹_›)

theorem start_span {i j : Interval} (hlo : i.lo ≤ j.lo) : (i.span j).start = i.start := by
  rw [start, span]
  dsimp only
  rw [if_pos hlo]
  rfl

theorem stop_span (i j : Interval) : (i.span j).stop = max i.stop j.stop := by
  rw [stop, span]
  dsimp only
  split <;> rename_i h <;> rw [Char.le_iff_ordinal_le, Fin.le_def] at h <;> unfold stop <;> omega

/-- Around two intervals of which the first reaches the second there is nothing but their members. -/
theorem mem_span {i j : Interval} (hlo : i.lo ≤ j.lo) (hreach : j.start ≤ i.stop) {c : Char} :
    c ∈ i.span j ↔ c ∈ i ∨ c ∈ j := by
  have hi := i.start_lt_stop
  have hj := j.start_lt_stop
  have hij : i.start ≤ j.start := Char.le_iff_ordinal_le.1 hlo
  rw [mem_iff_ordinal, mem_iff_ordinal, mem_iff_ordinal, start_span hlo, stop_span]
  omega

/-- No character lies between `i` and a later `j`. -/
def Adjoins (i j : Interval) : Prop := i.stop = j.start

instance (i j : Interval) : Decidable (i.Adjoins j) := inferInstanceAs (Decidable (_ = _))

/-- Intervals are ordered by their first character, then by their last. -/
instance : Ord Interval := ⟨compareLex (compareOn lo) (compareOn hi)⟩

instance : Std.TransOrd Interval := inferInstanceAs (Std.TransCmp (compareLex (compareOn lo) (compareOn hi)))

instance : Std.LawfulEqOrd Interval where
  eq_of_compare {i j} h := by
    have h : (compare i.lo j.lo).then (compare i.hi j.hi) = .eq := h
    obtain ⟨h₁, h₂⟩ := Ordering.then_eq_eq.1 h
    exact ext (Std.compare_eq_iff_eq.1 h₁) (Std.compare_eq_iff_eq.1 h₂)

/-- The members as a class in a pattern writes them: `a`, or `a-z`. -/
def render (i : Interval) : List Char := if i.isSingle then [i.lo] else [i.lo, '-', i.hi]

/-- The bounds in quotes: `'a'`, or `'a'..='z'`. -/
def quoted (i : Interval) : String :=
  if i.isSingle then Text.quotedChar i.lo else s!"{Text.quotedChar i.lo}..={Text.quotedChar i.hi}"

end Interval
end PatternAutomata
