import PatternAutomata.Proofs.Pattern.Spelling
/-!
# Errors — where a text goes wrong

A text that is no pattern is refused at a character of its own.  Either some character shows the error, and then every
longer text is refused in the same way; or all characters can be read, and the error is one of the four that come of the
text's end.  Both go through one invariant of the reader: every place that it has noted is one where a character begins
that it has read, and between two items no alternation lies on top of the stack.  By the latter the last branch of an
alternation is never found missing at the end of the text.
-/
namespace PatternAutomata

/-! ## Bytes -/

/-- The number of bytes that a text takes up. -/
def byteSize (text : List Char) : Nat := (String.ofList text).utf8ByteSize

/-- A character of the text begins at the byte offset. -/
def IsStart (text : List Char) (offset : Nat) : Prop := ∃ u c v, text = u ++ c :: v ∧ offset = byteSize u

theorem byteSize_append (u v : List Char) : byteSize (u ++ v) = byteSize u + byteSize v := by
  rw [byteSize, String.ofList_append, String.utf8ByteSize_append]
  rfl

theorem byteSize_singleton (c : Char) : byteSize [c] = c.utf8Size := by
  rw [byteSize, ← String.singleton_eq_ofList, String.utf8ByteSize_singleton]

theorem IsStart.lt_byteSize {text : List Char} {offset : Nat} : IsStart text offset → offset < byteSize text
  | ⟨u, c, v, htext, hoffset⟩ => by
    have hc : 0 < byteSize [c] := byteSize_singleton c ▸ c.utf8Size_pos
    rw [htext, hoffset, byteSize_append, ← List.singleton_append, byteSize_append]
    omega

theorem IsStart.append {text : List Char} {offset : Nat} (more : List Char) :
    IsStart text offset → IsStart (text ++ more) offset
  | ⟨u, c, v, htext, hoffset⟩ => ⟨u, c, v ++ more, by rw [htext, List.append_assoc, List.cons_append], hoffset⟩

theorem isStart_last (text : List Char) (c : Char) : IsStart (text ++ [c]) (byteSize text) := ⟨text, c, [], rfl, rfl⟩

/-! ## Messages of the end -/

/-- The cause is that the text ends. -/
def SyntaxError.Cause.AtEnd : SyntaxError.Cause → Prop
  | finalBar => True
  | unclosedClass => True
  | unclosedCount => True
  | unclosedGroup => True
  | _ => False

/-- What is said where a text ends too early. -/
def endMessages : List String :=
  ["'|' cannot be the final character in a regex", "unclosed character class", "unterminated '\x7b'", "unbalanced '('"]

theorem toString_text (s : String) : toString s = s := rfl

theorem toString_char (c : Char) : toString c = String.singleton c := rfl

/-- **The four messages of a text's end are said of no other error.** -/
theorem SyntaxError.Cause.message_mem_endMessages {cause : SyntaxError.Cause} :
    cause.message ∈ endMessages ↔ cause.AtEnd := by
  cases cause with
  | finalBar | unclosedClass | unclosedCount | unclosedGroup => exact iff_of_true (by decide) trivial
  | nothingToRepeat | notANumber | unexpected | reversedCounts | badRangeEnd | reversedRange | unexpectedInClass =>
    -- these hold a part of the text, but their own words differ from the four before it
    refine iff_of_false ?_ id
    dsimp only [message]
    simp [endMessages, ← String.toList_inj, toString_text, toString_char]
  | _ => exact iff_of_false (by decide) id

namespace Pattern

/-! ## Places -/

/-- Where a group was opened satisfies `P`. -/
def Entry.Placed (P : Nat → Prop) : Entry → Prop
  | group offset => P offset
  | _ => True

/-- The places that the mode keeps when it comes to `offset` satisfy `P`; a number may also begin there. -/
def Mode.Placed (P : Nat → Prop) (offset : Nat) : Mode → Prop
  | items => True
  | bar barOffset => P barOffset
  | least _ opened start _ => P opened ∧ (start = offset ∨ P start)
  | greatest _ opened _ start _ => P opened ∧ (start = offset ∨ P start)
  | members opened _ _ => P opened
  | rangeEnd opened _ _ => P opened

/-- What it means for a text to end in a mode. -/
def Mode.endCause : Mode → SyntaxError.Cause
  | items => .unclosedGroup
  | bar _ => .finalBar
  | least _ _ _ _ => .unclosedCount
  | greatest _ _ _ _ _ => .unclosedCount
  | members _ _ _ => .unclosedClass
  | rangeEnd _ _ _ => .unclosedClass

theorem Mode.atEnd_endCause (mode : Mode) : mode.endCause.AtEnd := by
  cases mode <;> exact trivial

/-- An alternation on top waits for its next branch. -/
def Waiting : List Entry → Prop
  | .branches _ :: _ => True
  | _ => False

/-- A computation gives a value that satisfies `Q`, or an error that is none of the text's end, found at a place that
satisfies `P`. -/
def Settles {α : Type} (P : Nat → Prop) (Q : α → Prop) : Except SyntaxError α → Prop
  | .ok a => Q a
  | .error e => P e.offset ∧ ¬e.cause.AtEnd

variable {P P' : Nat → Prop} {offset : Nat} {stack rest : List Entry} {mode : Mode} {c : Char} {text : List Char}

theorem Settles.bind {α β : Type} {Q : α → Prop} {R : β → Prop} {x : Except SyntaxError α}
    {f : α → Except SyntaxError β} (h : Settles P Q x) (hf : ∀ a, Q a → Settles P R (f a)) :
    Settles P R (x.bind f) := by
  cases x with
  | error e => exact h
  | ok a => exact hf a h

theorem Settles.mono {α : Type} {Q : α → Prop} {x : Except SyntaxError α} (h : Settles P Q x)
    (hP : ∀ o, P o → P' o) : Settles P' Q x := by
  cases x with
  | error e => exact ⟨hP _ h.1, h.2⟩
  | ok a => exact h

theorem Entry.Placed.mono (hP : ∀ o, P o → P' o) : ∀ {e : Entry}, e.Placed P → e.Placed P'
  | group _, h => hP _ h
  | item _, _ => trivial
  | run _ _, _ => trivial
  | branches _, _ => trivial

theorem Mode.Placed.mono (hP : ∀ o, P o → P' o) : ∀ {mode : Mode}, mode.Placed P offset → mode.Placed P' offset
  | items, _ => trivial
  | bar _, h => hP _ h
  | least _ _ _ _, h => ⟨hP _ h.1, h.2.imp_right (hP _)⟩
  | greatest _ _ _ _ _, h => ⟨hP _ h.1, h.2.imp_right (hP _)⟩
  | members _ _ _, h => hP _ h
  | rangeEnd _ _ _, h => hP _ h

theorem floor_suffix (stack : List Entry) : floor stack <:+ stack := by
  fun_induction floor stack with
  | case1 p stack ih => exact ih.trans (List.suffix_cons _ _)
  | case2 last earlier stack ih => exact ih.trans (List.suffix_cons _ _)
  | case3 stack => exact List.suffix_refl _

theorem takeBranch_suffix : (takeBranch stack).2 <:+ stack := by
  have hfloor : (takeBranch stack).2 = floor stack := takeItems_snd
  rw [hfloor]
  exact floor_suffix stack

/-! ## One character -/

theorem takeContent_settles (hoffset : P offset) : Settles P (fun t => t.2 <:+ stack) (takeContent offset stack) := by
  have hrest := @takeBranch_suffix stack
  unfold takeContent
  split
  · rename_i heq
    rw [heq] at hrest
    exact (List.suffix_cons _ _).trans hrest
  · exact ⟨hoffset, id⟩
  · rename_i heq
    rw [heq] at hrest
    exact hrest

theorem takeContent_of_not_waiting (h : ¬Waiting stack) :
    ∃ t, takeContent offset stack = .ok t ∧ t.2 <:+ stack := by
  have hcontent : ∃ t, takeContent offset stack = .ok t := by
    by_cases hfloor : IsFloor stack
    · rcases isFloor_cases hfloor with hground | ⟨ps, rest, rfl⟩
      · exact ⟨_, takeContent_of_grounded hground⟩
      · exact absurd trivial h
    · obtain ⟨p, hcontent, -⟩ := takeContent_of_items hfloor
      exact ⟨_, hcontent⟩
  obtain ⟨t, ht⟩ := hcontent
  have hsettles := @takeContent_settles (fun _ => True) offset stack trivial
  rw [ht] at hsettles
  exact ⟨t, ht, hsettles⟩

theorem endGroup_settles (hoffset : P offset) (hstack : ∀ e ∈ stack, e.Placed P) :
    Settles P (fun s => (∀ e ∈ s, e.Placed P) ∧ ¬Waiting s) (endGroup offset stack) := by
  apply (takeContent_settles hoffset).bind
  intro ⟨content, rest⟩ hsuffix
  have hrest : ∀ e ∈ rest, e.Placed P := fun e he => hstack e (hsuffix.subset he)
  split
  · rename_i heq
    cases heq
    exact ⟨List.forall_mem_cons.2 ⟨trivial, (List.forall_mem_cons.1 hrest).2⟩, id⟩
  · exact ⟨hoffset, id⟩

theorem endBranch_settles (hoffset : P offset) (hstack : ∀ e ∈ stack, e.Placed P) :
    Settles P (fun s => ∀ e ∈ s, e.Placed P) (endBranch offset stack) := by
  have hrest : ∀ e ∈ (takeBranch stack).2, e.Placed P := fun e he => hstack e (takeBranch_suffix.subset he)
  unfold endBranch
  split
  · rename_i heq
    rw [heq] at hrest
    exact List.forall_mem_cons.2 ⟨trivial, (List.forall_mem_cons.1 hrest).2⟩
  · rename_i heq
    rw [heq] at hrest
    exact List.forall_mem_cons.2 ⟨trivial, hrest⟩
  · exact ⟨hoffset, id⟩
  · exact ⟨hoffset, id⟩

theorem takeOperand_settles {sign : Char} (hoffset : P offset) (hstack : ∀ e ∈ stack, e.Placed P) :
    Settles P (fun t => ∀ e ∈ t.2, e.Placed P) (takeOperand sign offset stack) := by
  unfold takeOperand
  split
  · exact (List.forall_mem_cons.1 hstack).2
  · exact (List.forall_mem_cons.1 hstack).2
  · exact List.forall_mem_cons.2 ⟨trivial, (List.forall_mem_cons.1 hstack).2⟩
  · exact ⟨hoffset, id⟩

/-- All places that are noted satisfy `P`, and between two items no alternation is waiting. -/
structure Noted (P : Nat → Prop) (offset : Nat) (stack : List Entry) (mode : Mode) : Prop where
  entries : ∀ e ∈ stack, e.Placed P
  placed : mode.Placed P offset
  complete : mode = .items → ¬Waiting stack

theorem noted_item {p : Pattern} (h : ∀ e ∈ rest, e.Placed P) : Noted P offset (.item p :: rest) .items :=
  ⟨List.forall_mem_cons.2 ⟨trivial, h⟩, trivial, fun _ => id⟩

theorem noted_pushChar (h : ∀ e ∈ stack, e.Placed P) : Noted P offset (pushChar c stack) .items := by
  unfold pushChar
  split
  · exact ⟨List.forall_mem_cons.2 ⟨trivial, (List.forall_mem_cons.1 h).2⟩, trivial, fun _ => id⟩
  · exact ⟨List.forall_mem_cons.2 ⟨trivial, h⟩, trivial, fun _ => id⟩

theorem readItem_settles (hoffset : P offset) (hstack : ∀ e ∈ stack, e.Placed P) :
    Settles P (fun t => Noted P (offset + c.utf8Size) t.1 t.2) (readItem offset stack c) := by
  unfold readItem
  split
  · exact ⟨List.forall_mem_cons.2 ⟨hoffset, hstack⟩, trivial, fun _ => id⟩
  · exact (endGroup_settles hoffset hstack).bind fun s hs => ⟨hs.1, trivial, fun _ => hs.2⟩
  · exact ⟨hstack, hoffset, nofun⟩
  · exact (takeOperand_settles hoffset hstack).bind fun t ht => noted_item ht
  · exact (takeOperand_settles hoffset hstack).bind fun t ht => noted_item ht
  · exact (takeOperand_settles hoffset hstack).bind fun t ht => noted_item ht
  · exact (takeOperand_settles hoffset hstack).bind fun t ht => ⟨ht, ⟨hoffset, .inl rfl⟩, nofun⟩
  · exact ⟨hstack, hoffset, nofun⟩
  · exact ⟨hoffset, id⟩
  · exact ⟨hoffset, id⟩
  · exact noted_pushChar hstack

theorem endCount_settles {wanted : Char} {start : Nat} {digits : List Char} (hoffset : P offset) (hstart : P start) :
    Settles P (fun _ => True) (endCount wanted start digits offset c) := by
  unfold endCount
  split
  · exact ⟨hstart, id⟩
  · split
    · exact trivial
    · exact ⟨hoffset, id⟩

theorem counted_settles {p : Pattern} {least greatest : UInt32} (hoffset : P offset) :
    Settles P (fun _ => True) (counted p offset least greatest) := by
  unfold counted
  split
  · exact trivial
  · exact ⟨hoffset, id⟩

theorem ofClass_settles {intervals : List Interval} (hoffset : P offset) :
    Settles P (fun _ => True) (ofClass offset intervals) := by
  unfold ofClass
  split
  · exact trivial
  · exact ⟨hoffset, id⟩

theorem readRangeEnd_settles {lo : Char} (hoffset : P offset) :
    Settles P (fun _ => True) (readRangeEnd offset lo c) := by
  unfold readRangeEnd
  split
  · exact ⟨hoffset, id⟩
  · split
    · exact trivial
    · exact ⟨hoffset, id⟩

namespace Reader

/-- **An error that a character shows is found at a noted place or at the character itself**, and is none of the four
that come of the text's end. -/
theorem next_settles (hoffset : P offset) (hstack : ∀ e ∈ stack, e.Placed P) (hmode : mode.Placed P offset) :
    Settles P (fun t => Noted P (offset + c.utf8Size) t.1 t.2) (next offset stack c mode) := by
  -- where a number begins: at this character, or before it
  have hnumber : ∀ {start : Nat}, start = offset ∨ P start → P start := fun h => h.elim (· ▸ hoffset) id
  cases mode with
  | items => exact readItem_settles hoffset hstack
  | bar barOffset =>
    apply (endBranch_settles hmode hstack).bind
    intro s hs
    exact readItem_settles hoffset hs
  | least p opened start digits =>
    obtain ⟨hopened, hstart⟩ := hmode
    dsimp only [next]
    split
    · exact ⟨hstack, ⟨hopened, .inr (hnumber hstart)⟩, nofun⟩
    · apply (endCount_settles hoffset (hnumber hstart)).bind
      intro n _
      exact ⟨hstack, ⟨hopened, .inl rfl⟩, nofun⟩
  | greatest p opened least start digits =>
    obtain ⟨hopened, hstart⟩ := hmode
    dsimp only [next]
    split
    · exact ⟨hstack, ⟨hopened, .inr (hnumber hstart)⟩, nofun⟩
    · apply (endCount_settles hoffset (hnumber hstart)).bind
      intro n _
      apply (counted_settles hopened).bind
      intro q _
      exact noted_item hstack
  | members opened intervals last =>
    dsimp only [next]
    split
    · apply (ofClass_settles hmode).bind
      intro p _
      exact noted_item hstack
    · split
      · exact ⟨hstack, hmode, nofun⟩
      · exact ⟨hoffset, id⟩
    · exact ⟨hoffset, id⟩
    · exact ⟨hoffset, id⟩
    · exact ⟨hoffset, id⟩
    · exact ⟨hstack, hmode, nofun⟩
  | rangeEnd opened intervals lo =>
    apply (readRangeEnd_settles hoffset).bind
    intro i _
    exact ⟨hstack, hmode, nofun⟩

/-- The reader has read the text, and has noted only places where a character of it begins. -/
structure HasRead (r : Reader) (text : List Char) : Prop where
  offset_eq : r.offset = byteSize text
  noted : Noted (IsStart text) r.offset r.stack r.mode

theorem hasRead_start : start.HasRead [] := ⟨rfl, nofun, trivial, fun _ => id⟩

theorem HasRead.step {r : Reader} (h : r.HasRead text) (c : Char) :
    Settles (IsStart (text ++ [c])) (HasRead · (text ++ [c])) (r.step c) := by
  obtain ⟨hoffset, hstack, hmode, -⟩ := h
  have happend : ∀ o, IsStart text o → IsStart (text ++ [c]) o := fun _ => IsStart.append [c]
  have hlast : IsStart (text ++ [c]) r.offset := hoffset ▸ isStart_last text c
  have hentries : ∀ e ∈ r.stack, e.Placed (IsStart (text ++ [c])) := fun e he => (hstack e he).mono happend
  apply (next_settles hlast hentries (hmode.mono happend)).bind
  intro t ht
  refine ⟨?_, ht⟩
  rw [byteSize_append, byteSize_singleton, ← hoffset]

theorem HasRead.steps {r : Reader} (h : r.HasRead text) (more : List Char) :
    Settles (IsStart (text ++ more)) (HasRead · (text ++ more)) (r.steps more) := by
  induction more generalizing r text with
  | nil => rwa [List.append_nil]
  | cons c more ih =>
    have hstep : Settles (IsStart (text ++ [c] ++ more)) (HasRead · (text ++ [c])) (r.step c) :=
      (h.step c).mono fun _ => IsStart.append more
    rw [List.append_cons]
    apply hstep.bind
    intro s hs
    exact ih hs

/-- **An error of the text's end is found at a noted place**, and its cause is the mode that the text ends in. -/
theorem HasRead.finish {r : Reader} (h : r.HasRead text) {e : SyntaxError} (herror : r.finish = .error e) :
    IsStart text e.offset ∧ e.cause = r.mode.endCause := by
  obtain ⟨-, hstack, hmode, hwaiting⟩ := h
  obtain ⟨stack, mode, offset⟩ := r
  cases mode with
  | bar => cases herror; exact ⟨hmode, rfl⟩
  | least => cases herror; exact ⟨hmode.1, rfl⟩
  | greatest => cases herror; exact ⟨hmode.1, rfl⟩
  | members => cases herror; exact ⟨hmode, rfl⟩
  | rangeEnd => cases herror; exact ⟨hmode, rfl⟩
  | items =>
    obtain ⟨⟨content, rest⟩, hcontent, hrest⟩ := takeContent_of_not_waiting (hwaiting rfl)
    rcases bind_eq_error.1 herror with herror | ⟨t, ht, herror⟩
    · cases hcontent.symm.trans herror
    · cases hcontent.symm.trans ht
      split at herror
      · rename_i heq
        cases heq
        cases herror
        have hgroup := hstack _ (hrest.subset List.mem_cons_self)
        exact ⟨hgroup, rfl⟩
      · cases herror

/-- No mode that a bracket leads to ends a text for the same cause as the mode before. -/
theorem next_bracket {mode mode' : Mode} (h : next offset stack '[' mode = .ok (rest, mode')) :
    mode'.endCause ≠ mode.endCause := by
  cases mode with
  | items => cases h; exact nofun
  | bar =>
    obtain ⟨s, -, h⟩ := bind_eq_ok.1 h
    cases h
    exact nofun
  | least =>
    obtain ⟨n, hcount, -⟩ := bind_eq_ok.1 h
    exact absurd (endCount_eq_ok.1 hcount).2 (by decide)
  | greatest =>
    obtain ⟨n, hcount, -⟩ := bind_eq_ok.1 h
    exact absurd (endCount_eq_ok.1 hcount).2 (by decide)
  | members => cases h
  | rangeEnd => cases h

/-- **A text that ends too early fails otherwise when a bracket follows.** -/
theorem HasRead.bracket {r : Reader} (h : r.HasRead text) {e : SyntaxError} (herror : r.finish = .error e) :
    (r.steps ['[']).bind Reader.finish ≠ .error e := by
  intro hbracket
  obtain ⟨-, hcause⟩ := h.finish herror
  have hread := h.steps ['[']
  rcases bind_eq_error.1 hbracket with hsteps | ⟨s, hsteps, hfinish⟩
  · rw [hsteps] at hread
    exact hread.2 (hcause ▸ r.mode.atEnd_endCause)
  · rw [hsteps] at hread
    obtain ⟨-, hcause'⟩ := HasRead.finish hread hfinish
    obtain ⟨t, hstep, hnil⟩ := bind_eq_ok.1 hsteps
    obtain ⟨u, hnext, heq⟩ := bind_eq_ok.1 hstep
    cases heq
    cases hnil
    exact next_bracket hnext (hcause'.symm.trans hcause)

end Reader

/-- **A syntax error is decided by the first malformed construct.**  It is found where a character of the text begins,
and every longer text is refused in the same way exactly when the message is none of the four of the text's end. -/
theorem error_decided {text : List Char} {e : SyntaxError} (h : read text = .error e) :
    e.offset < byteSize text ∧ IsStart text e.offset ∧
      ((∀ more, read (text ++ more) = .error e) ↔ e.cause.message ∉ endMessages) := by
  have hread := Reader.hasRead_start.steps text
  rcases bind_eq_error.1 h with hsteps | ⟨r, hsteps, hfinish⟩
  · rw [hsteps] at hread
    obtain ⟨hstart, hcause⟩ := hread
    have hmessage : e.cause.message ∉ endMessages := mt SyntaxError.Cause.message_mem_endMessages.1 hcause
    refine ⟨hstart.lt_byteSize, hstart, fun _ => hmessage, fun _ more => ?_⟩
    rw [read, Reader.steps_append, hsteps]
    rfl
  · rw [hsteps] at hread
    obtain ⟨hstart, hcause⟩ := Reader.HasRead.finish hread hfinish
    have hmessage : e.cause.message ∈ endMessages :=
      SyntaxError.Cause.message_mem_endMessages.2 (hcause ▸ r.mode.atEnd_endCause)
    refine ⟨hstart.lt_byteSize, hstart, iff_of_false (fun hmore => ?_) (not_not_intro hmessage)⟩
    have hbracket := hmore ['[']
    rw [read, Reader.steps_append, hsteps] at hbracket
    exact Reader.HasRead.bracket hread hfinish hbracket

/-- Reversed counts are reported at their first brace, here behind a character of two bytes, and nothing that follows
can help; a count that the text's end leaves open can still be closed. -/
theorem error_decided_counts :
    read "é\x7b9,2\x7d".toList = .error ⟨.reversedCounts 9 2, 2⟩ ∧
      (∀ more, read ("é\x7b9,2\x7d".toList ++ more) = .error ⟨.reversedCounts 9 2, 2⟩) ∧
      read "é\x7b1".toList = .error ⟨.unclosedCount, 2⟩ ∧
      ¬∀ more, read ("é\x7b1".toList ++ more) = .error ⟨.unclosedCount, 2⟩ := by
  have hreversed : read "é\x7b9,2\x7d".toList = .error ⟨.reversedCounts 9 2, 2⟩ := by with_unfolding_all rfl
  have hunclosed : read "é\x7b1".toList = .error ⟨.unclosedCount, 2⟩ := by with_unfolding_all rfl
  exact ⟨hreversed, (error_decided hreversed).2.2.2 (by decide), hunclosed,
    mt (error_decided hunclosed).2.2.1 (by decide)⟩

end Pattern

end PatternAutomata
