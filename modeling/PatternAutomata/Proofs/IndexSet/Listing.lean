import PatternAutomata.IndexSet.Operation
/-!
# Listing — an index set is a list

A listing is a bound and a list of numbers, without slots, places or anything left behind in them; its operations are
those of lists.  An index set answers every operation as the listing of its members does, faults included, and the two
still correspond afterwards (`respond_listing`).  So whole histories agree (`history_listing`), and the answers depend
on the bound and the members only, whatever stands in the unused slots and places.
-/
namespace PatternAutomata

/-- Numbers in the order in which an index set up to `bound` lists them. -/
structure Listing where
  bound : Nat
  members : List Nat
deriving DecidableEq

namespace Listing

open IndexSet (Operation Answer)

def empty (bound : Nat) : Listing := ⟨bound, []⟩

/-- No number is repeated, and none is above the bound. -/
def Proper (bound : Nat) (xs : List Nat) : Prop := xs.Nodup ∧ ∀ x ∈ xs, x ≤ bound

/-- The list without `x`, whose place the last member takes. -/
def replaceByLast (xs : List Nat) (x : Nat) : List Nat :=
  match xs.idxOf? x with
  | some i => (xs.set i (xs.getLastD 0)).dropLast
  | none => xs

/-- Whether the operation asks for what the listing cannot do. -/
def Refuses (l : Listing) : Operation → Prop
  | .insert x => l.bound < x
  | .erase x => l.bound < x
  | .memberAt i => l.members.length ≤ i
  | _ => False

def respond (l : Listing) : Operation → Except Fault Answer × Listing
  | .insert x =>
    if l.bound < x then (.error (.valueTooLarge x l.bound), l)
    else if x ∈ l.members then (.ok (.truth false), l)
    else (.ok (.truth true), ⟨l.bound, l.members ++ [x]⟩)
  | .erase x =>
    if l.bound < x then (.error (.valueTooLarge x l.bound), l)
    else (.ok (.truth (x ∈ l.members)), ⟨l.bound, replaceByLast l.members x⟩)
  | .contains x => (.ok (.truth (x ∈ l.members)), l)
  | .placeOf x => (.ok (.ofNumber? (l.members.idxOf? x)), l)
  | .memberAt? i => (.ok (.ofNumber? l.members[i]?), l)
  | .memberAt i =>
    match l.members[i]? with
    | some x => (.ok (.number x), l)
    | none => (.error (.positionTooLarge i l.members.length), l)
  | .clear => (.ok .none, ⟨l.bound, []⟩)
  | .size => (.ok (.number l.members.length), l)
  | .isEmpty => (.ok (.truth l.members.isEmpty), l)
  | .bound => (.ok (.number l.bound), l)

theorem refuses_iff (l : Listing) (o : Operation) : l.Refuses o ↔ ∃ f, (l.respond o).1 = .error f := by
  cases o with
  | insert x => by_cases hx : l.bound < x <;> by_cases hmem : x ∈ l.members <;> simp [Refuses, respond, hx, hmem]
  | erase x => by_cases hx : l.bound < x <;> simp [Refuses, respond, hx]
  | memberAt i =>
    rw [Refuses, respond, ← List.getElem?_eq_none_iff]
    cases l.members[i]? <;> simp
  | _ => simp [Refuses, respond]

theorem bound_respond (l : Listing) (o : Operation) : (l.respond o).2.bound = l.bound := by
  cases o with
  | insert x =>
    rw [respond]
    split
    · rfl
    · split <;> rfl
  | erase x =>
    rw [respond]
    split <;> rfl
  | memberAt i =>
    rw [respond]
    split <;> rfl
  | _ => rfl

def history : Listing → List Operation → List (Except Fault Answer × List Nat)
  | _, [] => []
  | l, o :: os =>
    let (a, l) := l.respond o
    (a, l.members) :: history l os

end Listing

/-- Two listings side by side. -/
structure Listings where
  first : Listing
  second : Listing

namespace Listings

open IndexSet (Answer)

def empty (bound : Nat) : Listings := ⟨.empty bound, .empty bound⟩

def respond (l : Listings) : IndexSets.Operation → Except Fault Answer × Listings
  | .swap => (.ok .none, ⟨l.second, l.first⟩)
  | .clear => (.ok .none, ⟨.empty l.first.bound, .empty l.second.bound⟩)
  | .onFirst o => let (a, k) := l.first.respond o; (a, ⟨k, l.second⟩)
  | .onSecond o => let (a, k) := l.second.respond o; (a, ⟨l.first, k⟩)

def history : Listings → List IndexSets.Operation → List (Except Fault Answer × List Nat × List Nat)
  | _, [] => []
  | l, o :: os =>
    let (a, l) := l.respond o
    (a, l.first.members, l.second.members) :: history l os

end Listings

namespace IndexSet

variable {s t : IndexSet} {o : Operation} {os : List Operation} {a : Answer} {f : Fault} {x : Nat}

/-- The set without its slots and places. -/
def listing (s : IndexSet) : Listing := ⟨s.bound, s.toList⟩

/-! ## One operation -/

theorem respond_of_ok (h : s.perform o = .ok (a, t)) : s.respond o = (.ok a, t) := by rw [respond, h]

theorem respond_of_error (h : s.perform o = .error f) : s.respond o = (.error f, s) := by rw [respond, h]

theorem respond_eq_error_iff : (s.respond o).1 = .error f ↔ s.respond o = (.error f, s) := by
  refine ⟨fun h => ?_, congrArg Prod.fst⟩
  rw [respond] at h ⊢
  split at h
  · cases h
  · exact congrArg (·, s) h

/-- A member stands in one slot only, so its place is the first one. -/
theorem place?_eq_idxOf? (s : IndexSet) (x : Nat) : s.place? x = s.toList.idxOf? x := by
  refine Option.ext fun i => ?_
  rw [place?_eq_some, List.idxOf?_eq_some_iff, List.getElem?_eq_some_iff]
  refine exists_congr fun hi => ⟨fun hx => ⟨hx, fun j hj hjx => ?_⟩, And.left⟩
  exact List.pairwise_iff_getElem.1 s.nodup_toList j i (Nat.lt_trans hj hi) hi hj (hjx.trans hx.symm)

theorem contains_eq_decide (s : IndexSet) (x : Nat) : s.contains x = decide (x ∈ s.toList) :=
  Bool.eq_iff_iff.2 (contains_iff.trans decide_eq_true_iff.symm)

theorem respond_insert (s : IndexSet) (x : Nat) :
    s.listing.respond (.insert x) = ((s.respond (.insert x)).1, (s.respond (.insert x)).2.listing) := by
  rw [Listing.respond]
  cases h : s.insert x with
  | error f =>
    obtain ⟨hx, rfl⟩ := insert_eq_error.1 h
    have hperform : s.perform (.insert x) = .error (.valueTooLarge x s.bound) := by rw [perform, h]; rfl
    rw [respond_of_error hperform]
    exact if_pos hx
  | ok r =>
    obtain ⟨new, t⟩ := r
    have hx : ¬ s.bound < x := fun hx => by rw [insert_eq_error.2 ⟨hx, rfl⟩] at h; cases h
    obtain ⟨hbound, hnew, hlist⟩ := insert_eq_ok h
    have hperform : s.perform (.insert x) = .ok (.truth new, t) := by rw [perform, h]; rfl
    rw [respond_of_ok hperform, listing, listing, hbound, hlist, if_neg hx]
    by_cases hmem : x ∈ s.toList
    · obtain rfl : new = false := Bool.eq_false_iff.2 fun h => hnew.1 h hmem
      rw [if_pos hmem, if_pos hmem]
    · obtain rfl : new = true := hnew.2 hmem
      rw [if_neg hmem, if_neg hmem]

theorem respond_erase (s : IndexSet) (x : Nat) :
    s.listing.respond (.erase x) = ((s.respond (.erase x)).1, (s.respond (.erase x)).2.listing) := by
  rw [Listing.respond]
  cases h : s.erase x with
  | error f =>
    obtain ⟨hx, rfl⟩ := erase_eq_error.1 h
    have hperform : s.perform (.erase x) = .error (.valueTooLarge x s.bound) := by rw [perform, h]; rfl
    rw [respond_of_error hperform]
    exact if_pos hx
  | ok r =>
    obtain ⟨old, t⟩ := r
    have hx : ¬ s.bound < x := fun hx => by rw [erase_eq_error.2 ⟨hx, rfl⟩] at h; cases h
    obtain ⟨hbound, hold, hlist⟩ := erase_eq_ok h
    have hperform : s.perform (.erase x) = .ok (.truth old, t) := by rw [perform, h]; rfl
    have hold : old = decide (x ∈ s.toList) := Bool.eq_iff_iff.2 (hold.trans decide_eq_true_iff.symm)
    rw [place?_eq_idxOf?] at hlist
    rw [respond_of_ok hperform, listing, listing, hbound, hlist, if_neg hx, hold]
    rfl

theorem respond_memberAt (s : IndexSet) (i : Nat) :
    s.listing.respond (.memberAt i) = ((s.respond (.memberAt i)).1, (s.respond (.memberAt i)).2.listing) := by
  have hget : s.listing.members[i]? = s.get? i := s.getElem?_toList i
  rw [Listing.respond, hget]
  cases h : s.get? i with
  | some x =>
    have hperform : s.perform (.memberAt i) = .ok (.number x, s) := by rw [perform, get, h]; rfl
    rw [respond_of_ok hperform]
  | none =>
    have hperform : s.perform (.memberAt i) = .error (.positionTooLarge i s.size) := by rw [perform, get, h]; rfl
    rw [respond_of_error hperform]
    exact congrArg (fun n => (Except.error (Fault.positionTooLarge i n), s.listing)) s.length_toList

/-- **Every operation is answered as on the list of the members**, and does to them what it does to the list. -/
theorem respond_listing (s : IndexSet) (o : Operation) :
    s.listing.respond o = ((s.respond o).1, (s.respond o).2.listing) := by
  cases o with
  | insert x => exact s.respond_insert x
  | erase x => exact s.respond_erase x
  | contains x => exact congrArg (fun b => (Except.ok (Answer.truth b), s.listing)) (s.contains_eq_decide x).symm
  | placeOf x => exact congrArg (fun p => (Except.ok (Answer.ofNumber? p), s.listing)) (s.place?_eq_idxOf? x).symm
  | memberAt? i => exact congrArg (fun p => (Except.ok (Answer.ofNumber? p), s.listing)) (s.getElem?_toList i)
  | memberAt i => exact s.respond_memberAt i
  | clear => rfl
  | size => exact congrArg (fun n => (Except.ok (Answer.number n), s.listing)) s.length_toList
  | isEmpty =>
    have h : s.toList.isEmpty = s.isEmpty := by
      rw [isEmpty, ← s.length_toList]
      cases s.toList <;> rfl
    exact congrArg (fun b => (Except.ok (Answer.truth b), s.listing)) h
  | bound => rfl

/-- **What is refused** is a fault and changes nothing. -/
theorem refuses_iff (s : IndexSet) (o : Operation) : s.listing.Refuses o ↔ ∃ f, s.respond o = (.error f, s) := by
  have h : (s.respond o).1 = (s.listing.respond o).1 := (congrArg Prod.fst (s.respond_listing o)).symm
  rw [Listing.refuses_iff]
  exact exists_congr fun f => by rw [← respond_eq_error_iff, h]

/-- Everything else is answered. -/
theorem not_refuses_iff (s : IndexSet) (o : Operation) : ¬ s.listing.Refuses o ↔ ∃ a t, s.respond o = (.ok a, t) := by
  rw [refuses_iff]
  rcases h : s.respond o with ⟨a | a, t⟩
  · have ht : (s.respond o).1 = .error a := by rw [h]
    rw [respond_eq_error_iff, h] at ht
    simp [ht]
  · simp

theorem bound_respond (s : IndexSet) (o : Operation) : (s.respond o).2.bound = s.bound := by
  have h : (s.listing.respond o).2.bound = (s.respond o).2.bound := by rw [respond_listing]; rfl
  exact h.symm.trans (s.listing.bound_respond o)

/-! ## Histories -/

theorem history_eq (s : IndexSet) : ∀ os, s.history os = s.listing.history os
  | [] => rfl
  | o :: os => by
    rw [history, Listing.history, respond_listing]
    exact congrArg (_ :: ·) (history_eq _ os)

theorem proper_toList (s : IndexSet) : Listing.Proper s.bound s.toList := ⟨s.nodup_toList, fun _ => le_bound_of_mem⟩

theorem history_proper (s : IndexSet) : ∀ os, ∀ e ∈ s.history os, Listing.Proper s.bound e.2
  | [], _, he => nomatch he
  | o :: os, e, he => by
    rw [← s.bound_respond o]
    rcases List.mem_cons.1 he with rfl | he
    · exact proper_toList _
    · exact history_proper _ os e he

end IndexSet

namespace IndexSets

def listings (s : IndexSets) : Listings := ⟨s.first.listing, s.second.listing⟩

theorem respond_listings (s : IndexSets) (o : Operation) :
    s.listings.respond o = ((s.respond o).1, (s.respond o).2.listings) := by
  cases o with
  | swap => rfl
  | clear => rfl
  | onFirst o => rw [Listings.respond, listings, IndexSet.respond_listing]; rfl
  | onSecond o => rw [Listings.respond, listings, IndexSet.respond_listing]; rfl

theorem history_eq (s : IndexSets) : ∀ os, s.history os = s.listings.history os
  | [] => rfl
  | o :: os => by
    rw [history, Listings.history, respond_listings]
    exact congrArg (_ :: ·) (history_eq _ os)

theorem bounds_respond {n : Nat} (s : IndexSets) (o : Operation) (h : s.first.bound = n ∧ s.second.bound = n) :
    (s.respond o).2.first.bound = n ∧ (s.respond o).2.second.bound = n := by
  cases o with
  | swap => exact h.symm
  | clear => exact h
  | onFirst o => exact ⟨(s.first.bound_respond o).trans h.1, h.2⟩
  | onSecond o => exact ⟨h.1, (s.second.bound_respond o).trans h.2⟩

theorem history_proper {n : Nat} (s : IndexSets) (h : s.first.bound = n ∧ s.second.bound = n) :
    ∀ os, ∀ e ∈ s.history os, Listing.Proper n e.2.1 ∧ Listing.Proper n e.2.2
  | [], _, he => nomatch he
  | o :: os, e, he => by
    have hbounds := s.bounds_respond o h
    rcases List.mem_cons.1 he with rfl | he
    · exact ⟨hbounds.1 ▸ IndexSet.proper_toList _, hbounds.2 ▸ IndexSet.proper_toList _⟩
    · exact history_proper _ hbounds os e he

end IndexSets

/-- **An index set is a duplicate-free list.**  A set that starts empty, and a pair of them, answers every history of
operations as lists do, and lists the same members after each; so does any other set, by its bound and members alone.
The members are never repeated and never above the bound.  An operation is a fault exactly if it inserts or removes a
number above the bound or asks for a position behind the last, and then nothing is changed. -/
theorem history_listing (n : Nat) :
    (∀ os, (IndexSet.empty n).history os = (Listing.empty n).history os) ∧
    (∀ os, (IndexSets.empty n).history os = (Listings.empty n).history os) ∧
    (∀ (s : IndexSet) os, s.history os = s.listing.history os) ∧
    (∀ (s : IndexSets) os, s.history os = s.listings.history os) ∧
    (∀ os, ∀ e ∈ (IndexSet.empty n).history os, Listing.Proper n e.2) ∧
    (∀ os, ∀ e ∈ (IndexSets.empty n).history os, Listing.Proper n e.2.1 ∧ Listing.Proper n e.2.2) ∧
    ∀ (s : IndexSet) o, (s.listing.Refuses o ↔ ∃ f, s.respond o = (.error f, s)) ∧
      (¬ s.listing.Refuses o ↔ ∃ a t, s.respond o = (.ok a, t)) :=
  ⟨(IndexSet.empty n).history_eq, (IndexSets.empty n).history_eq, IndexSet.history_eq, IndexSets.history_eq,
    (IndexSet.empty n).history_proper, (IndexSets.empty n).history_proper ⟨rfl, rfl⟩,
    fun s o => ⟨s.refuses_iff o, s.not_refuses_iff o⟩⟩

end PatternAutomata
