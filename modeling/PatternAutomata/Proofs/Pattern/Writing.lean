import PatternAutomata.Proofs.Pattern.Grammar
import PatternAutomata.Proofs.Pattern.Interchangeable
/-!
# Writing — texts put together

The grammar joins branches and items one by one from the left, so the tree of two texts put together is seldom the two
trees joined; but it is interchangeable with that.  `Writes` leaves this much open, and so has one law for each operator
of patterns.
-/
namespace PatternAutomata
namespace Pattern

/-- The text is derived from the symbol, and its tree is interchangeable with the pattern. -/
def Writes (x : Symbol) (t : List Char) (p : Pattern) : Prop := ∃ q, Derives x t q ∧ q.Interchangeable p

variable {x : Symbol} {s t : List Char} {p q : Pattern} {c : Char} {w : Word}

theorem Derives.writes (h : Derives x t p) : Writes x t p := ⟨p, h, .refl p⟩

namespace Writes

theorem derivable (h : Writes x t p) : Derivable x t := h.imp fun _ h => h.1

theorem congr (h : Writes x t p) (hpq : p.Interchangeable q) : Writes x t q :=
  h.imp fun _ ⟨hr, hrp⟩ => ⟨hr, hrp.trans hpq⟩

theorem branch (h : Writes .item t p) : Writes .branch t p := h.imp fun _ ⟨hq, hqp⟩ => ⟨.item hq, hqp⟩

theorem branches (h : Writes .branch t p) : Writes .branches t p := h.imp fun _ ⟨hq, hqp⟩ => ⟨.branch hq, hqp⟩

theorem group (h : Writes .branches t p) : Writes .item ('(' :: t ++ [')']) p :=
  h.imp fun _ ⟨hq, hqp⟩ => ⟨.atom (.group (.pattern hq)), hqp⟩

theorem star (h : Writes .item t p) : Writes .item (t ++ ['*']) (star p) := by
  obtain ⟨q, hq, hqp⟩ := h
  exact ⟨_, hq.star, hqp.star⟩

theorem count {least greatest : List Char} {times : Bounds} (h : Writes .item t p) (hleast : Numeral least times.least)
    (hgreatest : Numeral greatest times.greatest) :
    Writes .item (t ++ '{' :: least ++ ',' :: greatest ++ ['}']) (count p times) := by
  obtain ⟨q, hq, hqp⟩ := h
  exact ⟨_, hq.count hleast hgreatest, hqp.count⟩

-- By induction on the second derivation, since the grammar adds the items to the first branch one by one.
theorem seq_derives (hs : Writes .branch s p) : ∀ {t : List Char} {q : Pattern}, Derives .branch t q →
    Writes .branch (s ++ t) (seq p q)
  | _, _, .item h => by
    obtain ⟨r, hr, hrp⟩ := hs
    exact ⟨_, hr.seq h, hrp.seq (.refl _)⟩
  | _, _, .seq (s := u) (t := v) hu hv => by
    obtain ⟨r, hr, hrp⟩ := seq_derives hs hu
    rw [← s.append_assoc u v]
    exact ⟨_, hr.seq hv, (hrp.seq (.refl _)).trans interchangeable_seq_assoc⟩

theorem seq (hs : Writes .branch s p) (ht : Writes .branch t q) : Writes .branch (s ++ t) (seq p q) := by
  obtain ⟨r, hr, hrq⟩ := ht
  exact (hs.seq_derives hr).congr (.seq (.refl p) hrq)

-- Likewise for the branches behind a bar.
theorem alt_derives (hs : Writes .branches s p) : ∀ {t : List Char} {q : Pattern}, Derives .branches t q →
    Writes .branches (s ++ '|' :: t) (alt p q)
  | _, _, .branch h => by
    obtain ⟨r, hr, hrp⟩ := hs
    exact ⟨_, hr.alt h, hrp.alt (.refl _)⟩
  | _, _, .alt (s := u) (t := v) hu hv => by
    obtain ⟨r, hr, hrp⟩ := alt_derives hs hu
    rw [← List.cons_append, ← s.append_assoc ('|' :: u) ('|' :: v)]
    exact ⟨_, hr.alt hv, (hrp.alt (.refl _)).trans interchangeable_alt_assoc⟩

theorem alt (hs : Writes .branches s p) (ht : Writes .branches t q) : Writes .branches (s ++ '|' :: t) (alt p q) := by
  obtain ⟨r, hr, hrq⟩ := ht
  exact (hs.alt_derives hr).congr (.alt (.refl p) hrq)

end Writes

theorem writes_char (h : c ∉ signs) : Writes .item [c] (word [c]) := (Derives.atom (.char h)).writes

/-- Characters that are no signs make a branch. -/
theorem writes_word : ∀ {w : Word}, w ≠ [] → (∀ c ∈ w, c ∉ signs) → Writes .branch w (word w)
  | [], h, _ => absurd rfl h
  | [c], _, h => (writes_char (h c List.mem_cons_self)).branch
  | c :: d :: w, _, h => by
    have htail : Writes .branch (d :: w) (word (d :: w)) :=
      writes_word (List.cons_ne_nil d w) fun e he => h e (List.mem_cons_of_mem c he)
    exact ((writes_char (h c List.mem_cons_self)).branch.seq htail).congr interchangeable_word_append

end Pattern
end PatternAutomata
