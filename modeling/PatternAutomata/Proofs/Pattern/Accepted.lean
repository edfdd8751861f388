import PatternAutomata.Pattern.Language
/-!
# Accepted — the words that a pattern's automaton accepts

The automaton of a repetition leaves it by an empty move out of the start of the repeated part.  Where that part itself
begins with a repetition, its start can be met again in the middle of a match, and the automaton then leaves too early:
`(a*b)*` accepts `a`.  So beside the accepted words one has to follow the words that lead back to the start
(`Reenters`), and a repetition accepts any number of either (`Accepted`).  No match is lost by this
(`accepted_of_matches`), and the words are the right ones in all parts of a pattern exactly when, for each repetition,
what leads its part back to the start is matched by the repetition anyway (`exact_iff`).
-/
namespace PatternAutomata

variable {L M : Word → Prop} {k : Nat} {u v w : Word}

theorem Repeats.mono (h : ∀ w, L w → M w) : ∀ {k : Nat} {w : Word}, Repeats L k w → Repeats M k w
  | 0, _, hw => hw
  | _ + 1, _, ⟨u, v, huv, hu, hv⟩ => ⟨u, v, huv, h u hu, hv.mono h⟩

theorem repeats_congr (h : ∀ w, L w ↔ M w) : Repeats L k w ↔ Repeats M k w :=
  ⟨Repeats.mono fun w => (h w).1, Repeats.mono fun w => (h w).2⟩

theorem repeats_one : Repeats L 1 w ↔ L w := followed_nil

theorem repeats_add {l : Nat} : Repeats L (k + l) w ↔ Followed (Repeats L k) (Repeats L l) w := by
  induction k generalizing w with
  | zero => rw [Nat.zero_add]; exact nil_followed.symm
  | succ k ih =>
    rw [Nat.succ_add]
    exact (followed_congr (fun _ => Iff.rfl) fun _ => ih).trans followed_assoc.symm

/-- Any number of words that are made of any number of words of `L` are made of any number of words of `L`. -/
theorem exists_repeats_of_repeats (h : Repeats (fun u => L u ∨ ∃ l, Repeats L l u) k w) : ∃ l, Repeats L l w := by
  induction k generalizing w with
  | zero => exact ⟨0, h⟩
  | succ k ih =>
    obtain ⟨u, v, huv, hu, hv⟩ := h
    obtain ⟨l, hl⟩ := ih hv
    rcases hu with hu | ⟨l', hl'⟩
    · exact ⟨l + 1, u, v, huv, hu, hl⟩
    · exact ⟨l' + l, repeats_add.2 ⟨u, v, huv, hl', hl⟩⟩

namespace Pattern

mutual

/-- The words that the automaton of a pattern accepts. -/
def Accepted : Pattern → Word → Prop
  | word v, w => w = v
  | seq head tail, w => ∃ u v, u ++ v = w ∧ head.Accepted u ∧ tail.Accepted v
  | alt left right, w => left.Accepted w ∨ right.Accepted w
  | star p, w => ∃ k, Repeats (fun u => p.Accepted u ∨ p.Reenters u) k w
  | count p times, w => ∃ k, times.least ≤ k ∧ k ≤ times.greatest ∧ Repeats p.Accepted k w
  | oneOf intervals, w => ∃ i ∈ intervals, ∃ c, c ∈ i ∧ w = [c]

/-- The words that lead the automaton of a pattern back to its start. -/
def Reenters : Pattern → Word → Prop
  | seq head _, w => head.Reenters w
  | star p, w => ∃ k, Repeats (fun u => p.Accepted u ∨ p.Reenters u) k w
  | _, w => w = []

end

def Filled : Pattern → Prop
  | word _ => True
  | seq head tail => head.Filled ∧ tail.Filled
  | alt left right => left.Filled ∧ right.Filled
  | star p => p.Filled
  | count p _ => p.Filled
  | oneOf intervals => intervals ≠ []

/-- The words of the repetition that a pattern begins with; the empty word if it begins with none. -/
def Leads : Pattern → Word → Prop
  | seq head _, w => head.Leads w
  | star p, w => (star p).Matches w
  | _, w => w = []

def parts : Pattern → List Pattern
  | word w => [word w]
  | seq head tail => seq head tail :: (head.parts ++ tail.parts)
  | alt left right => alt left right :: (left.parts ++ right.parts)
  | star p => star p :: p.parts
  | count p times => count p times :: p.parts
  | oneOf intervals => [oneOf intervals]

theorem self_mem_parts (p : Pattern) : p ∈ p.parts := by
  cases p <;> simp [parts]

/-- **No match is lost.** -/
theorem accepted_of_matches : ∀ {p : Pattern} {w : Word}, p.Matches w → p.Accepted w
  | word _, _, h => h
  | seq _ _, _, ⟨u, v, huv, hu, hv⟩ => ⟨u, v, huv, accepted_of_matches hu, accepted_of_matches hv⟩
  | alt _ _, _, .inl h => .inl (accepted_of_matches h)
  | alt _ _, _, .inr h => .inr (accepted_of_matches h)
  | star _, _, ⟨k, h⟩ => ⟨k, h.mono fun _ hu => .inl (accepted_of_matches hu)⟩
  | count _ _, _, ⟨k, hle, hge, h⟩ => ⟨k, hle, hge, h.mono fun _ hu => accepted_of_matches hu⟩
  | oneOf _, _, h => h

theorem reenters_of_leads : ∀ {p : Pattern} {w : Word}, p.Leads w → p.Reenters w
  | word _, _, h => h
  | seq head _, _, h => reenters_of_leads (p := head) h
  | alt _ _, _, h => h
  | star p, _, h => accepted_of_matches (p := star p) h
  | count _ _, _, h => h
  | oneOf _, _, h => h

/-- Where each repetition matches what leads its part back to the start, the accepted words are the matching ones. -/
theorem accepted_iff_of_leads : ∀ {p : Pattern}, (∀ q, star q ∈ p.parts → ∀ w, q.Leads w → (star q).Matches w) →
    (∀ w, p.Accepted w ↔ p.Matches w) ∧ ∀ w, p.Reenters w ↔ p.Leads w
  | word _, _ => ⟨fun _ => Iff.rfl, fun _ => Iff.rfl⟩
  | oneOf _, _ => ⟨fun _ => Iff.rfl, fun _ => Iff.rfl⟩
  | seq head tail, h => by
    have hh := accepted_iff_of_leads (p := head) fun q hq => h q (by simp [parts, hq])
    have ht := accepted_iff_of_leads (p := tail) fun q hq => h q (by simp [parts, hq])
    refine ⟨fun w => ?_, hh.2⟩
    exact exists_congr fun u => exists_congr fun v => and_congr_right fun _ => and_congr (hh.1 u) (ht.1 v)
  | alt left right, h => by
    have hl := accepted_iff_of_leads (p := left) fun q hq => h q (by simp [parts, hq])
    have hr := accepted_iff_of_leads (p := right) fun q hq => h q (by simp [parts, hq])
    exact ⟨fun w => or_congr (hl.1 w) (hr.1 w), fun _ => Iff.rfl⟩
  | count p _, h => by
    have hp := accepted_iff_of_leads (p := p) fun q hq => h q (by simp [parts, hq])
    refine ⟨fun w => ?_, fun _ => Iff.rfl⟩
    exact exists_congr fun k => and_congr_right fun _ => and_congr_right fun _ => repeats_congr hp.1
  | star p, h => by
    have hp := accepted_iff_of_leads (p := p) fun q hq => h q (by simp [parts, hq])
    have hiff (w : Word) : (star p).Accepted w ↔ (star p).Matches w := by
      refine ⟨fun ⟨k, hk⟩ => ?_, accepted_of_matches⟩
      refine exists_repeats_of_repeats (k := k) (hk.mono fun u hu => hu.imp (hp.1 u).1 fun hu => ?_)
      exact h p (self_mem_parts _) u ((hp.2 u).1 hu)
    exact ⟨hiff, hiff⟩

theorem mem_parts_trans : ∀ {p q r : Pattern}, q ∈ p.parts → r ∈ q.parts → r ∈ p.parts
  | word _, _, _, hq, hr => List.mem_singleton.1 hq ▸ hr
  | oneOf _, _, _, hq, hr => List.mem_singleton.1 hq ▸ hr
  | seq head tail, q, r, hq, hr => by
    rcases List.mem_cons.1 hq with rfl | hq
    · exact hr
    · rcases List.mem_append.1 hq with hq | hq
      · exact List.mem_cons_of_mem _ (List.mem_append_left _ (mem_parts_trans hq hr))
      · exact List.mem_cons_of_mem _ (List.mem_append_right _ (mem_parts_trans hq hr))
  | alt left right, q, r, hq, hr => by
    rcases List.mem_cons.1 hq with rfl | hq
    · exact hr
    · rcases List.mem_append.1 hq with hq | hq
      · exact List.mem_cons_of_mem _ (List.mem_append_left _ (mem_parts_trans hq hr))
      · exact List.mem_cons_of_mem _ (List.mem_append_right _ (mem_parts_trans hq hr))
  | star p, q, r, hq, hr => by
    rcases List.mem_cons.1 hq with rfl | hq
    · exact hr
    · exact List.mem_cons_of_mem _ (mem_parts_trans hq hr)
  | count p _, q, r, hq, hr => by
    rcases List.mem_cons.1 hq with rfl | hq
    · exact hr
    · exact List.mem_cons_of_mem _ (mem_parts_trans hq hr)

/-- **When the accepted words are the right ones**: in all parts of a pattern exactly when each repetition matches what
leads its part back to the start. -/
theorem exact_iff (p : Pattern) : (∀ q ∈ p.parts, ∀ w, q.Accepted w ↔ q.Matches w) ↔
    ∀ q, star q ∈ p.parts → ∀ w, q.Leads w → (star q).Matches w := by
  constructor
  · intro h q hq w hw
    exact (h _ hq w).1 ⟨1, repeats_one.2 (.inr (reenters_of_leads hw))⟩
  · intro h q hq
    exact (accepted_iff_of_leads fun r hr => h r (mem_parts_trans hq hr)).1

end Pattern
end PatternAutomata
