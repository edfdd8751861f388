import PatternAutomata.Fault
/-!
# IndexSet — sets of small numbers, cleared at once

An index set admits the numbers up to its bound.  Its members stand in the first `size` slots, and each member's place
says in which.  A number is a member exactly when its place names a used slot that holds it, so what is left behind in
the other slots and places after `clear` or `remove` is never read as a member, and neither array is ever wiped.

`toList` is the set's meaning: the members in the order of their slots.  Each operation is described through it.
-/
namespace PatternAutomata

/-- A set of numbers up to `bound`. -/
structure IndexSet where
  /-- The greatest admissible member. -/
  bound : Nat
  size : Nat
  /-- The members, in the first `size` slots. -/
  slots : Array Nat
  /-- For each member the slot it stands in. -/
  places : Array Nat
  slots_size : slots.size = bound + 1
  places_size : places.size = bound + 1
  size_le : size ≤ bound + 1
  linked : ∀ i, i < size → ∃ x, slots[i]? = some x ∧ places[x]? = some i

/-- A duplicate-free list of numbers below `n` has at most `n` members. -/
theorem length_le_of_nodup_of_lt {n : Nat} {xs : List Nat} (hnodup : xs.Nodup) (h : ∀ x ∈ xs, x < n) :
    xs.length ≤ n := by
  have hle := hnodup.length_le_of_subset fun x hx => List.mem_range.2 (h x hx)
  rwa [List.length_range] at hle

namespace IndexSet

def empty (bound : Nat) : IndexSet where
  bound := bound
  size := 0
  slots := Array.replicate (bound + 1) 0
  places := Array.replicate (bound + 1) 0
  slots_size := Array.size_replicate
  places_size := Array.size_replicate
  size_le := Nat.zero_le _
  linked := fun i h => absurd h (Nat.not_lt_zero i)

/-- The members, in the order of their slots. -/
def toList (s : IndexSet) : List Nat := s.slots.toList.take s.size

/-- The slot of `x`, if it is a member. -/
def place? (s : IndexSet) (x : Nat) : Option Nat :=
  match s.places[x]? with
  | some i => if i < s.size ∧ s.slots[i]? = some x then some i else none
  | none => none

/-- Whether `x` is a member; a number above the bound never is. -/
def contains (s : IndexSet) (x : Nat) : Bool := (s.place? x).isSome

def get? (s : IndexSet) (i : Nat) : Option Nat := if i < s.size then s.slots[i]? else none

def isEmpty (s : IndexSet) : Bool := s.size == 0

/-- Forgets every member and leaves both arrays as they are. -/
def clear (s : IndexSet) : IndexSet :=
  { s with size := 0, size_le := Nat.zero_le _, linked := fun i h => absurd h (Nat.not_lt_zero i) }

/-! ## What the arrays say about the members -/

theorem length_toList (s : IndexSet) : s.toList.length = s.size := by
  rw [toList, List.length_take, Array.length_toList, s.slots_size]
  exact Nat.min_eq_left s.size_le

theorem getElem?_toList (s : IndexSet) (i : Nat) : s.toList[i]? = s.get? i := by
  rw [toList, List.getElem?_take, get?]
  split <;> simp

theorem place?_eq_some {s : IndexSet} {x i : Nat} : s.place? x = some i ↔ s.toList[i]? = some x := by
  rw [getElem?_toList, place?, get?]
  constructor
  · intro h
    split at h
    · split at h
      · rename_i hc
        cases h
        rw [if_pos hc.1, hc.2]
      · cases h
    · cases h
  · intro h
    split at h
    · rename_i hi
      obtain ⟨y, hy, hp⟩ := s.linked i hi
      cases hy.symm.trans h
      rw [hp]
      exact if_pos ⟨hi, hy⟩
    · cases h

theorem contains_iff {s : IndexSet} {x : Nat} : s.contains x = true ↔ x ∈ s.toList := by
  rw [contains, Option.isSome_iff_exists, List.mem_iff_getElem?]
  exact exists_congr fun i => place?_eq_some

/-- **No member is listed twice.** -/
theorem nodup_toList (s : IndexSet) : s.toList.Nodup := by
  refine List.pairwise_iff_getElem.2 fun i j hi hj hij heq => ?_
  have h₁ := place?_eq_some.2 (List.getElem?_eq_getElem hi)
  have h₂ := place?_eq_some.2 (List.getElem?_eq_getElem hj)
  rw [heq, h₂] at h₁
  cases h₁
  exact Nat.lt_irrefl _ hij

theorem le_bound_of_mem {s : IndexSet} {x : Nat} (h : x ∈ s.toList) : x ≤ s.bound := by
  obtain ⟨i, hi⟩ := List.mem_iff_getElem?.1 h
  have hp := place?_eq_some.2 hi
  rw [place?] at hp
  split at hp
  · rename_i hx
    have := (Array.getElem?_eq_some_iff.1 hx).1
    rw [s.places_size] at this
    omega
  · cases hp

/-- There is room for a number that is admissible and not a member. -/
theorem size_le_bound {s : IndexSet} {x : Nat} (hx : x ≤ s.bound) (hnew : s.contains x = false) : s.size ≤ s.bound := by
  have hx' : x ∉ s.toList := fun h => by rw [contains_iff.2 h] at hnew; cases hnew
  have h := length_le_of_nodup_of_lt (n := s.bound + 1) (List.nodup_cons.2 ⟨hx', s.nodup_toList⟩) fun y hy => by
    rcases List.mem_cons.1 hy with rfl | hy
    · omega
    · exact Nat.lt_succ_of_le (le_bound_of_mem hy)
  rw [List.length_cons, length_toList] at h
  omega

/-! ## Adding and removing -/

/-- Puts an admissible number that is not a member into the next slot. -/
def push (s : IndexSet) (x : Nat) (hx : x ≤ s.bound) (hnew : s.contains x = false) : IndexSet where
  bound := s.bound
  size := s.size + 1
  slots := s.slots.setIfInBounds s.size x
  places := s.places.setIfInBounds x s.size
  slots_size := by rw [Array.size_setIfInBounds, s.slots_size]
  places_size := by rw [Array.size_setIfInBounds, s.places_size]
  size_le := Nat.succ_le_succ (size_le_bound hx hnew)
  linked := fun i hi => by
    have hroom : s.size < s.slots.size := by
      rw [s.slots_size]; exact Nat.lt_succ_of_le (size_le_bound hx hnew)
    by_cases hs : s.size = i
    · subst hs
      refine ⟨x, Array.getElem?_setIfInBounds_self_of_lt hroom, ?_⟩
      rw [Array.getElem?_setIfInBounds_self_of_lt (by rw [s.places_size]; omega)]
    · obtain ⟨y, hy, hp⟩ := s.linked i (by omega)
      refine ⟨y, by rw [Array.getElem?_setIfInBounds_ne hs, hy], ?_⟩
      have hyx : x ≠ y := fun h => by
        subst h
        have : s.contains x = true :=
          contains_iff.2 (List.mem_iff_getElem?.2 ⟨i, by rw [getElem?_toList, get?, if_pos (by omega), hy]⟩)
        rw [this] at hnew; cases hnew
      rw [Array.getElem?_setIfInBounds_ne hyx, hp]

def moveLast (s : IndexSet) (i : Nat) (hi : i < s.size) : IndexSet where
  bound := s.bound
  size := s.size - 1
  slots := s.slots.setIfInBounds i (s.slots.getD (s.size - 1) 0)
  places := s.places.setIfInBounds (s.slots.getD (s.size - 1) 0) i
  slots_size := by rw [Array.size_setIfInBounds, s.slots_size]
  places_size := by rw [Array.size_setIfInBounds, s.places_size]
  size_le := Nat.le_trans (Nat.sub_le _ _) s.size_le
  linked := fun j hj => by
    obtain ⟨last, hlast, hplast⟩ := s.linked (s.size - 1) (by omega)
    have hd : s.slots.getD (s.size - 1) 0 = last := by rw [Array.getD_eq_getD_getElem?, hlast]; rfl
    rw [hd]
    by_cases hij : i = j
    · subst hij
      have := s.size_le
      refine ⟨last, by rw [Array.getElem?_setIfInBounds_self_of_lt (by rw [s.slots_size]; omega)], ?_⟩
      rw [Array.getElem?_setIfInBounds_self_of_lt (Array.getElem?_eq_some_iff.1 hplast).1]
    · obtain ⟨y, hy, hp⟩ := s.linked j (by omega)
      have hly : last ≠ y := fun h => by
        subst h
        have := Option.some.inj (hp.symm.trans hplast)
        omega
      exact ⟨y, by rw [Array.getElem?_setIfInBounds_ne hij, hy], by rw [Array.getElem?_setIfInBounds_ne hly, hp]⟩

/-- Adds `x` after the last member; the answer says whether it is new. -/
def insert (s : IndexSet) (x : Nat) : Except Fault (Bool × IndexSet) :=
  if hx : x ≤ s.bound then
    if hnew : s.contains x = false then .ok (true, s.push x hx hnew) else .ok (false, s)
  else .error (.valueTooLarge x s.bound)

/-- Drops `x`, and the last member takes its slot; the answer says whether `x` was a member. -/
def erase (s : IndexSet) (x : Nat) : Except Fault (Bool × IndexSet) :=
  if x ≤ s.bound then
    match s.place? x with
    | some i => if hi : i < s.size then .ok (true, s.moveLast i hi) else .ok (false, s)
    | none => .ok (false, s)
  else .error (.valueTooLarge x s.bound)

/-- The member in slot `i`, which must be a used one. -/
def get (s : IndexSet) (i : Nat) : Except Fault Nat :=
  match s.get? i with
  | some x => .ok x
  | none => .error (.positionTooLarge i s.size)

@[simp] theorem toList_empty (bound : Nat) : (empty bound).toList = [] := rfl

@[simp] theorem toList_clear (s : IndexSet) : s.clear.toList = [] := rfl

theorem toList_push (s : IndexSet) (x : Nat) (hx : x ≤ s.bound) (hnew : s.contains x = false) :
    (s.push x hx hnew).toList = s.toList ++ [x] := by
  have hroom : s.size < s.slots.size := by
    rw [s.slots_size]; exact Nat.lt_succ_of_le (size_le_bound hx hnew)
  have hlen := s.length_toList
  refine List.ext_getElem? fun i => ?_
  rw [getElem?_toList, get?, push]
  dsimp only
  rcases Nat.lt_trichotomy i s.size with h | h | h
  · rw [if_pos (Nat.lt_succ_of_lt h), Array.getElem?_setIfInBounds_ne (Nat.ne_of_gt h),
      List.getElem?_append_left (hlen ▸ h), getElem?_toList, get?, if_pos h]
  · subst h
    rw [if_pos (Nat.lt_succ_self _), Array.getElem?_setIfInBounds_self_of_lt hroom,
      List.getElem?_append_right (Nat.le_of_eq hlen), hlen, Nat.sub_self, List.getElem?_cons_zero]
  · have hend : (s.toList ++ [x]).length ≤ i := by
      rw [List.length_append, hlen]; exact h
    rw [if_neg (by omega), List.getElem?_eq_none hend]

theorem toList_moveLast (s : IndexSet) (i : Nat) (hi : i < s.size) :
    (s.moveLast i hi).toList = (s.toList.set i (s.toList.getLastD 0)).dropLast := by
  have hlen := s.length_toList
  have hlast : s.toList.getLastD 0 = s.slots.getD (s.size - 1) 0 := by
    rw [List.getLastD_eq_getLast?, List.getLast?_eq_getElem?, hlen, getElem?_toList, get?, if_pos (by omega),
      Array.getD_eq_getD_getElem?]
  refine List.ext_getElem? fun j => ?_
  rw [getElem?_toList, get?, List.getElem?_dropLast, List.length_set, hlen, hlast, moveLast]
  dsimp only
  by_cases hj : j < s.size - 1
  · rw [if_pos hj, if_pos hj, List.getElem?_set, hlen, Array.getElem?_setIfInBounds, getElem?_toList, get?,
      if_pos (by omega : j < s.size), if_pos hi]
    have := s.size_le
    by_cases hij : i = j
    · rw [if_pos hij, if_pos hij, if_pos (by rw [s.slots_size]; omega)]
    · rw [if_neg hij, if_neg hij]
  · rw [if_neg hj, if_neg hj]

/-- **Insertion.**  An admissible number joins the members at the end, unless it is one of them. -/
theorem insert_eq_ok {s t : IndexSet} {x : Nat} {new : Bool} (h : s.insert x = .ok (new, t)) :
    t.bound = s.bound ∧ (new = true ↔ x ∉ s.toList) ∧
      t.toList = if x ∈ s.toList then s.toList else s.toList ++ [x] := by
  rw [insert] at h
  split at h
  · split at h
    · rename_i hx hnew
      have hx' : x ∉ s.toList := fun h => by rw [contains_iff.2 h] at hnew; cases hnew
      cases h
      exact ⟨rfl, by simp [hx'], by rw [if_neg hx', toList_push]⟩
    · rename_i hold
      have hx' : x ∈ s.toList := contains_iff.1 (by simpa using hold)
      cases h
      exact ⟨rfl, by simp [hx'], by rw [if_pos hx']⟩
  · cases h

/-- **Removal.**  The last member takes the slot of the member removed. -/
theorem erase_eq_ok {s t : IndexSet} {x : Nat} {old : Bool} (h : s.erase x = .ok (old, t)) :
    t.bound = s.bound ∧ (old = true ↔ x ∈ s.toList) ∧
      t.toList = match s.place? x with
        | some i => (s.toList.set i (s.toList.getLastD 0)).dropLast
        | none => s.toList := by
  rw [erase] at h
  split at h
  · split at h
    · rename_i i hp
      have hx := List.mem_of_getElem? (place?_eq_some.1 hp)
      have hi : i < s.size := by
        have := (List.getElem?_eq_some_iff.1 (place?_eq_some.1 hp)).1
        rwa [length_toList] at this
      rw [dif_pos hi] at h
      cases h
      exact ⟨rfl, by simp [hx], toList_moveLast s i hi⟩
    · rename_i hp
      have hx : x ∉ s.toList := fun h => by
        have := contains_iff.2 h
        rw [contains, hp] at this
        cases this
      cases h
      exact ⟨rfl, by simp [hx], rfl⟩
  · cases h

theorem erase_eq_error {s : IndexSet} {x : Nat} {f : Fault} :
    s.erase x = .error f ↔ s.bound < x ∧ f = .valueTooLarge x s.bound := by
  rw [erase]
  split
  · split
    · split <;> exact ⟨fun h => (nomatch h), fun h => by omega⟩
    · exact ⟨fun h => (nomatch h), fun h => by omega⟩
  · exact ⟨fun h => by cases h; exact ⟨by omega, rfl⟩, fun h => by rw [h.2]⟩

theorem insert_eq_error {s : IndexSet} {x : Nat} {f : Fault} :
    s.insert x = .error f ↔ s.bound < x ∧ f = .valueTooLarge x s.bound := by
  rw [insert]
  split
  · split <;> exact ⟨fun h => (nomatch h), fun h => by omega⟩
  · exact ⟨fun h => by cases h; exact ⟨by omega, rfl⟩, fun h => by rw [h.2]⟩

end IndexSet
end PatternAutomata
