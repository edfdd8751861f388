import PatternAutomata.Proofs.Compiled
import PatternAutomata.Proofs.Pattern.Rendering
/-!
# Reversal — the automaton of the reversed words

The automaton of a repetition can come back to the start of its part in the middle of a match, and the automaton of the
reversed pattern does so elsewhere, so the two need not accept the same words: `(ba*)*` rejects `a`, and its reversal
accepts it.  In all parts of a pattern they do exactly when, for each repetition, what leads its part back to the start
is accepted by the reversed repetition as well, and the other way round (`mirrored_parts_iff`).  No match is lost in
either direction.

The text of a reversed automaton is the reversed pattern written out.  It is read as a pattern of another tree, but as
one that is interchangeable with it, so compiling the text gives an automaton with the same answers
(`compile_text_of_reversals`).
-/
namespace PatternAutomata

open Relation (ReflTransGen)

namespace Pattern

variable {p q : Pattern} {w : Word}

/-- The automaton of the reversed pattern accepts the reversed words. -/
def Mirrored (p : Pattern) : Prop := ∀ w, p.Accepted w ↔ p.reverse.Accepted w.reverse

/-- What leads the automaton of `q` back to its start is accepted by the reversed repetition of `q`, in reverse, and
what leads that of the reversed pattern back by the repetition of `q`. -/
def ReturnsMirrored (q : Pattern) : Prop :=
  ∀ w, (q.Reenters w → (star q.reverse).Accepted w.reverse) ∧ (q.reverse.Reenters w.reverse → (star q).Accepted w)

theorem Mirrored.reverse (h : p.Mirrored) : p.reverse.Mirrored := by
  intro w
  rw [reverse_reverse, h, List.reverse_reverse]

theorem mirrored_word (v : Word) : (word v).Mirrored := by
  intro w
  change w = v ↔ w.reverse = v.reverse
  rw [List.reverse_inj]

theorem Mirrored.seq {head tail : Pattern} (hh : head.Mirrored) (ht : tail.Mirrored) : (seq head tail).Mirrored :=
  fun _ => followed_reverse hh ht

/-- What the automaton of a repetition of `q` reads in one round. -/
def Round (q : Pattern) (w : Word) : Prop := q.Accepted w ∨ q.Reenters w

/-- One direction of a repetition: its rounds, reversed, are rounds of the reversed repetition or words of it. -/
theorem accepted_star_reverse (hq : ∀ w, q.Accepted w → q.reverse.Accepted w.reverse)
    (hreturn : ∀ w, q.Reenters w → (star q.reverse).Accepted w.reverse) (hw : (star q).Accepted w) :
    (star q.reverse).Accepted w.reverse := by
  obtain ⟨k, hk⟩ := hw
  have hreverse {l : Nat} {u : Word} :
      Repeats (fun u => q.reverse.Round u.reverse) l u ↔ Repeats q.reverse.Round l u.reverse :=
    repeats_reverse fun _ => Iff.rfl
  have hrounds : Repeats (fun u => q.reverse.Round u.reverse ∨ ∃ l, Repeats (fun u => q.reverse.Round u.reverse) l u)
      k w := hk.mono fun u hu => by
    rcases hu with hu | hu
    · exact .inl (.inl (hq u hu))
    · obtain ⟨l, hl⟩ := hreturn u hu
      exact .inr ⟨l, hreverse.2 hl⟩
  obtain ⟨l, hl⟩ := exists_repeats_of_repeats hrounds
  exact ⟨l, hreverse.1 hl⟩

theorem mirrored_star_iff (hq : q.Mirrored) : (star q).Mirrored ↔ q.ReturnsMirrored := by
  constructor
  · intro h w
    refine ⟨fun hw => (h w).1 ⟨1, repeats_one.2 (.inr hw)⟩, fun hw => (h w).2 ?_⟩
    exact ⟨1, repeats_one.2 (.inr hw)⟩
  · intro h w
    refine ⟨accepted_star_reverse (fun w => (hq w).1) fun w => (h w).1, fun hw => ?_⟩
    have := accepted_star_reverse (q := q.reverse) (w := w.reverse) (fun w => (hq.reverse w).1) (fun w hw => ?_) hw
    · rwa [reverse_reverse, List.reverse_reverse] at this
    · rw [reverse_reverse]
      exact (h w.reverse).2 (by rwa [List.reverse_reverse])

theorem mirrored_of_returns : ∀ {p : Pattern}, (∀ q, star q ∈ p.parts → q.ReturnsMirrored) → p.Mirrored
  | word v, _ => mirrored_word v
  | oneOf intervals, _ => fun w => by
    refine exists_congr fun i => and_congr_right fun _ => exists_congr fun c => and_congr_right fun _ => ?_
    rw [List.reverse_eq_iff, List.reverse_singleton]
  | seq head tail, h =>
    (mirrored_of_returns fun q hq => h q (by simp [parts, hq])).seq
      (mirrored_of_returns fun q hq => h q (by simp [parts, hq]))
  | alt left right, h => fun w =>
    or_congr (mirrored_of_returns (p := left) (fun q hq => h q (by simp [parts, hq])) w)
      (mirrored_of_returns (p := right) (fun q hq => h q (by simp [parts, hq])) w)
  | star p, h =>
    (mirrored_star_iff (mirrored_of_returns fun q hq => h q (by simp [parts, hq]))).2 (h p (self_mem_parts _))
  | count p _, h => fun w =>
    exists_congr fun k => and_congr_right fun _ => and_congr_right fun _ =>
      repeats_reverse (mirrored_of_returns (p := p) fun q hq => h q (by simp [parts, hq]))

/-- **When reversing a pattern reverses the accepted words** in all its parts. -/
theorem mirrored_parts_iff : (∀ q ∈ p.parts, q.Mirrored) ↔ ∀ q, star q ∈ p.parts → q.ReturnsMirrored := by
  constructor
  · intro h q hq
    exact (mirrored_star_iff (h q (mem_parts_trans hq (List.mem_cons_of_mem _ (self_mem_parts q))))).1 (h _ hq)
  · intro h q hq
    exact mirrored_of_returns fun r hr => h r (mem_parts_trans hq hr)

theorem filled_reverse : ∀ {p : Pattern}, p.Filled → p.reverse.Filled
  | word _, _ => trivial
  | seq head tail, ⟨hh, ht⟩ => ⟨filled_reverse (p := tail) ht, filled_reverse (p := head) hh⟩
  | alt left right, ⟨hl, hr⟩ => ⟨filled_reverse (p := left) hl, filled_reverse (p := right) hr⟩
  | star p, h => filled_reverse (p := p) h
  | count p _, h => filled_reverse (p := p) h
  | oneOf _, h => h

theorem filled_iff : ∀ {p : Pattern}, p.Filled ↔ ∀ intervals, oneOf intervals ∈ p.parts → intervals ≠ []
  | word _ => by simp [Filled, parts]
  | oneOf _ => by simp [Filled, parts]
  | seq head tail => by simp [Filled, parts, filled_iff (p := head), filled_iff (p := tail), or_imp, forall_and]
  | alt left right => by simp [Filled, parts, filled_iff (p := left), filled_iff (p := right), or_imp, forall_and]
  | star p => by simp [Filled, parts, filled_iff (p := p)]
  | count p _ => by simp [Filled, parts, filled_iff (p := p)]

theorem filled_of_mem_parts (hp : p.Filled) (hq : q ∈ p.parts) : q.Filled :=
  filled_iff.2 fun intervals h => filled_iff.1 hp intervals (mem_parts_trans hq h)

end Pattern

namespace Compiled

variable {s text : List Char} {p : Pattern} {a b c : Compiled} {w : Word}

/-- `a` comes of `c` by any number of reversals. -/
def Reversals (c a : Compiled) : Prop := ReflTransGen (fun a b => a.reverse = .ok b) c a

/-- What answers to a pattern without empty character sets, whatever text it is written as. -/
structure Answers (p : Pattern) (a : Compiled) : Prop where
  filled : p.Filled
  pattern_eq : a.pattern = p
  isMatch_iff : ∀ w, a.isMatch w = true ↔ p.Accepted w

theorem answers_of_ofPattern (hp : p.Filled) (h : ofPattern text p = .ok c) : Answers p c := by
  obtain ⟨d, hd, hpattern, -, hmatch⟩ := exists_ofPattern hp text
  cases h.symm.trans hd
  exact ⟨hp, hpattern, hmatch⟩

theorem Answers.exists_reverse (h : Answers p a) : ∃ b, a.reverse = .ok b ∧ Answers p.reverse b := by
  obtain ⟨b, hb, -⟩ := exists_ofPattern (Pattern.filled_reverse h.filled) p.reverse.render
  refine ⟨b, ?_, answers_of_ofPattern (Pattern.filled_reverse h.filled) hb⟩
  rw [Compiled.reverse, h.pattern_eq, hb]

/-- After any number of reversals the pattern is the first one or its reversal. -/
theorem Answers.reversals (h : Answers p c) (hreach : c.Reversals a) : Answers p a ∨ Answers p.reverse a := by
  induction hreach with
  | refl => exact .inl h
  | tail _ hstep ih =>
    rcases ih with ih | ih
    · obtain ⟨b, hb, hans⟩ := ih.exists_reverse
      cases hstep.symm.trans hb
      exact .inr hans
    · obtain ⟨b, hb, hans⟩ := ih.exists_reverse
      cases hstep.symm.trans hb
      rw [Pattern.reverse_reverse] at hans
      exact .inl hans

theorem Answers.mirrored_iff (h : Answers p a) :
    (∃ b, a.reverse = .ok b ∧ ∀ w, b.isMatch w.reverse = a.isMatch w) ↔ p.Mirrored := by
  obtain ⟨b, hb, hans⟩ := h.exists_reverse
  constructor
  · rintro ⟨b', hb', heq⟩ w
    cases hb.symm.trans hb'
    rw [← h.isMatch_iff, ← hans.isMatch_iff, heq]
  · intro hp
    exact ⟨b, hb, fun w => Bool.eq_iff_iff.2 (by rw [h.isMatch_iff, hans.isMatch_iff, hp])⟩

theorem Answers.matches_reverse (h : Answers p a) : ∃ b, a.reverse = .ok b ∧
    ∀ w, a.pattern.Matches w → a.isMatch w = true ∧ b.isMatch w.reverse = true := by
  obtain ⟨b, hb, hans⟩ := h.exists_reverse
  refine ⟨b, hb, fun w hw => ?_⟩
  rw [h.pattern_eq] at hw
  refine ⟨(h.isMatch_iff w).2 (Pattern.accepted_of_matches hw), (hans.isMatch_iff _).2 ?_⟩
  exact Pattern.accepted_of_matches (Pattern.matches_reverse.2 (by rwa [List.reverse_reverse]))

theorem compileReversed_of_reverse (hc : compile s = .ok c) (hr : c.reverse = .ok a) : compileReversed s = .ok a := by
  change (compile s).bind _ = _
  rw [hc]
  change c.reverse.mapError _ = _
  rw [hr]
  rfl

/-- **When the reversed automaton accepts the reversed words.**  For a pattern and all its parts, and for whatever comes
of them by further reversals, it does exactly when each repetition among them accepts, in the other direction, what
leads its part back to the start.  It can always be built, and no match is ever lost. -/
theorem isMatch_reverse_iff (hp : Pattern.read s = .ok p) :
    (∃ c r, compile s = .ok c ∧ compileReversed s = .ok r ∧ c.reverse = .ok r ∧
      ∀ a, c.Reversals a → ∃ b, a.reverse = .ok b ∧
        ∀ w, a.pattern.Matches w → a.isMatch w = true ∧ b.isMatch w.reverse = true) ∧
    ((∀ q ∈ p.parts, ∀ text, ∃ c, ofPattern text q = .ok c ∧ ∀ a, c.Reversals a →
        ∃ b, a.reverse = .ok b ∧ ∀ w, b.isMatch w.reverse = a.isMatch w) ↔
      ∀ q, .star q ∈ p.parts → q.ReturnsMirrored) := by
  have hfilled := Pattern.filled_of_read hp
  constructor
  · obtain ⟨c, hc, -⟩ := exists_ofPattern hfilled s
    have hans := answers_of_ofPattern hfilled hc
    have hcompile : compile s = .ok c := compile_eq_ok.2 ⟨p, hp, hc⟩
    obtain ⟨r, hr, -⟩ := hans.exists_reverse
    refine ⟨c, r, hcompile, compileReversed_of_reverse hcompile hr, hr, fun a ha => ?_⟩
    exact (hans.reversals ha).elim Answers.matches_reverse Answers.matches_reverse
  · rw [← Pattern.mirrored_parts_iff]
    refine forall_congr' fun q => forall_congr' fun hq => ?_
    have hq := Pattern.filled_of_mem_parts hfilled hq
    constructor
    · intro h
      obtain ⟨c, hc, h⟩ := h q.render
      exact (answers_of_ofPattern hq hc).mirrored_iff.1 (h c .refl)
    · intro h text
      obtain ⟨c, hc, -⟩ := exists_ofPattern hq text
      refine ⟨c, hc, fun a ha => ?_⟩
      rcases (answers_of_ofPattern hq hc).reversals ha with ha | ha
      · exact ha.mirrored_iff.2 h
      · exact ha.mirrored_iff.2 h.reverse

/-- In `(a*)*b` one repetition begins with another, and reversing it reverses the matches all the same. -/
theorem isMatch_reverse_nested_star : ∃ c r, compile "(a*)*b".toList = .ok c ∧
    compileReversed "(a*)*b".toList = .ok r ∧ ∀ w, r.isMatch w.reverse = c.isMatch w := by
  have hp : Pattern.read "(a*)*b".toList = .ok (.seq (.star (.star (.word ['a']))) (.word ['b'])) := by
    with_unfolding_all rfl
  have hword : (Pattern.word ['a']).ReturnsMirrored :=
    fun w => ⟨fun hw => ⟨0, List.reverse_eq_nil_iff.2 hw⟩, fun hw => ⟨0, List.reverse_eq_nil_iff.1 hw⟩⟩
  have hstar : (Pattern.star (.word ['a'])).Mirrored :=
    (Pattern.mirrored_star_iff (Pattern.mirrored_word _)).2 hword
  have hreturns : ∀ q, .star q ∈ (Pattern.seq (.star (.star (.word ['a']))) (.word ['b'])).parts →
      q.ReturnsMirrored := by
    intro q hq
    simp only [Pattern.parts, List.cons_append, List.nil_append, List.mem_cons, reduceCtorEq, Pattern.star.injEq,
      List.not_mem_nil, or_false, false_or] at hq
    rcases hq with rfl | rfl
    · exact fun w => ⟨fun hw => ⟨1, repeats_one.2 (.inl ((hstar w).1 hw))⟩,
        fun hw => ⟨1, repeats_one.2 (.inl ((hstar w).2 hw))⟩⟩
    · exact hword
  obtain ⟨⟨c, r, hc, hr, hreverse, -⟩, hiff⟩ := isMatch_reverse_iff hp
  obtain ⟨c', hc', h⟩ := hiff.2 hreturns _ (Pattern.self_mem_parts _) "(a*)*b".toList
  obtain ⟨p, hp', hc''⟩ := compile_eq_ok.1 hc
  cases hp.symm.trans hp'
  cases hc'.symm.trans hc''
  obtain ⟨r', hr', h⟩ := h c .refl
  cases hreverse.symm.trans hr'
  exact ⟨c, r, hc, hr, h⟩

/-- `(ba*)*` rejects `a`; read backwards, the repetition begins with another one, and the way out of it is taken too
early. -/
theorem isMatch_reverse_late_star : ∃ c r, compile "(ba*)*".toList = .ok c ∧ compileReversed "(ba*)*".toList = .ok r ∧
    c.isMatch ['a'] = false ∧ r.isMatch ['a'].reverse = true :=
  ⟨_, _, by with_unfolding_all rfl, by with_unfolding_all rfl, by with_unfolding_all rfl, by with_unfolding_all rfl⟩

/-! ## The text of a reversal -/

theorem text_of_reverse (h : a.reverse = .ok b) : b.text = b.pattern.render := by
  obtain ⟨-, hb⟩ := ofPattern_eq_ok h
  rw [hb]

theorem Reversals.exists_reverse (h : c.reverse = .ok a) (hreach : a.Reversals b) :
    ∃ d : Compiled, d.reverse = .ok b := by
  cases hreach with
  | refl => exact ⟨c, h⟩
  | tail _ hstep => exact ⟨_, hstep⟩

/-- What answers to a pattern answers as the pattern written out does. -/
theorem Answers.exists_compile (h : Answers p a) (hp : p.Spellable) : ∃ b, compile p.render = .ok b ∧
    (∀ w, b.isMatch w = a.isMatch w) ∧ ∀ w, b.pattern.Matches w ↔ p.Matches w := by
  obtain ⟨q, hq, hqp⟩ := Pattern.exists_read_render hp
  obtain ⟨b, hb, hpattern, -, hmatch⟩ := PatternAutomata.exists_compile hq
  refine ⟨b, hb, fun w => Bool.eq_iff_iff.2 ?_, fun w => ?_⟩
  · rw [hmatch, hqp.accepted_iff, h.isMatch_iff]
  · rw [hpattern, hqp.matches_iff]

/-- **The text of a reversed automaton is a pattern for it.**  After any number of reversals, compiling the text gives
an automaton that accepts the same words, for a pattern that stands for the same words. -/
theorem compile_text_of_reversals (hp : Pattern.read s = .ok p) : ∃ r, compileReversed s = .ok r ∧
    ∀ a, r.Reversals a → (∃ a', a.reverse = .ok a') ∧ ∃ b, compile a.text = .ok b ∧
      (∀ w, b.isMatch w = a.isMatch w) ∧ ∀ w, b.pattern.Matches w ↔ a.pattern.Matches w := by
  have hspell := Pattern.spellable_of_read hp
  obtain ⟨c, hc, -⟩ := exists_ofPattern (Pattern.filled_of_read hp) s
  have hans := answers_of_ofPattern (Pattern.filled_of_read hp) hc
  obtain ⟨r, hr, hans'⟩ := hans.exists_reverse
  have hcompile : compile s = .ok c := compile_eq_ok.2 ⟨p, hp, hc⟩
  refine ⟨r, compileReversed_of_reverse hcompile hr, fun a ha => ?_⟩
  -- `a` comes of a reversal itself, so its text is its pattern written out
  obtain ⟨d, hd⟩ := ha.exists_reverse hr
  obtain ⟨q, hq, hans⟩ : ∃ q : Pattern, q.Spellable ∧ Answers q a := by
    rcases hans'.reversals ha with hans | hans
    · exact ⟨_, Pattern.spellable_reverse hspell, hans⟩
    · exact ⟨_, Pattern.spellable_reverse (Pattern.spellable_reverse hspell), hans⟩
  obtain ⟨a', ha', -⟩ := hans.exists_reverse
  rw [text_of_reverse hd, hans.pattern_eq]
  exact ⟨⟨a', ha'⟩, hans.exists_compile hq⟩

/-- Reversing `((ab|())c)*` gives the text `(c(ba|()))*`, which is read as a pattern of another shape. -/
theorem compile_text_of_reversals_empty_branch : ∃ r, compileReversed "((ab|())c)*".toList = .ok r ∧
    r.text = "(c(ba|()))*".toList ∧ ∃ b, compile r.text = .ok b ∧ ∀ w, b.isMatch w = r.isMatch w := by
  have hread : ∃ p, Pattern.read "((ab|())c)*".toList = .ok p := ⟨_, by with_unfolding_all rfl⟩
  obtain ⟨p, hp⟩ := hread
  obtain ⟨r, hr, h⟩ := compile_text_of_reversals hp
  have htext : (compileReversed "((ab|())c)*".toList).toOption.map text = some "(c(ba|()))*".toList := by
    decide +kernel
  rw [hr] at htext
  obtain ⟨-, b, hb, hmatch, -⟩ := h r .refl
  exact ⟨r, hr, Option.some.inj htext, b, hb, hmatch⟩

end Compiled
end PatternAutomata
