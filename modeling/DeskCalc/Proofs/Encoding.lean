import DeskCalc.Proofs.Remainder

/-!
# The bytes of a text

A text can be handed out as its characters or as the bytes that encode them. The lines are the same:
the byte of a line break stands in no other encoding, so cutting the bytes cuts the characters.

* `LineSource.mem_utf8EncodeChar_iff` — where the byte of a line break stands.
* `LineSource.decodeLine_encode` — the bytes of a line are decoded to its characters.
* `LineSource.lines_ofBytes` — the bytes of a text have the lines of the text.
* `LineSource.Contains` — a source that hands out a text and nothing else.
-/

namespace DeskCalc

/-- A front part that is not cut belongs to the first piece. -/
theorem Text.splitAfter_append {β : Type} [DecidableEq β] {stop : β} {xs : List β} (h : stop ∉ xs)
    (hne : xs ≠ []) (ys : List β) :
    splitAfter stop (xs ++ ys) =
      match splitAfter stop ys with
      | [] => [xs]
      | piece :: pieces => (xs ++ piece) :: pieces := by
  -- by induction on the front part, the last element of which is the base case
  induction xs with
  | nil => exact absurd rfl hne
  | cons x xs ih =>
    obtain ⟨hx, hxs⟩ := not_or.1 (List.mem_cons.not.1 h)
    rw [List.cons_append, splitAfter_cons (Ne.symm hx)]
    cases xs with
    | nil => rfl
    | cons x' xs =>
      rw [ih hxs (List.cons_ne_nil x' xs)]
      cases splitAfter stop ys <;> rfl

namespace LineSource

/-- The byte of a line break stands in its encoding only. -/
theorem mem_utf8EncodeChar_iff {c : Char} : 10 ∈ String.utf8EncodeChar c ↔ c = '\n' := by
  constructor
  · intro h
    obtain ⟨i, hi, hbyte⟩ := List.mem_iff_getElem.1 h
    -- the byte can start an encoding, so it stands at the front, and then there is no other
    have hfirst : (10 : UInt8).IsUTF8FirstByte := by decide
    rw [← hbyte, UInt8.isUTF8FirstByte_getElem_utf8EncodeChar] at hfirst
    subst hfirst
    have hdecode : (String.utf8EncodeChar c).toByteArray.utf8DecodeChar? 0 = some c := by
      have := ByteArray.utf8DecodeChar?_utf8EncodeChar_append (b := .empty) (c := c)
      rwa [ByteArray.append_empty] at this
    have hsize := ByteArray.utf8Size_utf8DecodeChar (h := by rw [hdecode]; rfl)
    have hlength : (String.utf8EncodeChar c).length = 1 := by
      rw [String.length_utf8EncodeChar]
      have hlow : (10 : UInt8) &&& 128 = 0 := by decide
      simpa [ByteArray.utf8DecodeChar, hdecode, hbyte, UInt8.utf8ByteSize, hlow] using hsize
    obtain ⟨b, hb⟩ := List.length_eq_one_iff.1 hlength
    refine eq_newline_of_utf8EncodeChar ?_
    simp only [hb] at hbyte ⊢
    simpa using hbyte
  · rintro rfl
    decide

/-- Cutting the bytes of a text at the byte of a line break cuts the text at its line breaks. -/
theorem splitAfter_encode (cs : List Char) :
    Text.splitAfter 10 (cs.flatMap String.utf8EncodeChar) =
      (Text.splitAfter '\n' cs).map (List.flatMap String.utf8EncodeChar) := by
  induction cs with
  | nil => rfl
  | cons c cs ih =>
    -- in UTF-8 the byte of a line break stands for a line break only
    by_cases hc : c = '\n'
    · subst hc
      rw [Text.splitAfter_stop, List.map_cons, ← ih]
      exact Text.splitAfter_stop 10 _
    · rw [List.flatMap_cons, Text.splitAfter_append (mt mem_utf8EncodeChar_iff.1 hc)
        String.utf8EncodeChar_ne_nil, ih, Text.splitAfter_cons hc]
      cases Text.splitAfter '\n' cs with
      | nil => simp
      | cons piece pieces => simp

/-- The bytes of a line of text are decoded to it. -/
theorem decodeLine_encode (cs : List Char) :
    decodeLine (cs.flatMap String.utf8EncodeChar) = .text cs := by
  have hbytes : (⟨(cs.flatMap String.utf8EncodeChar).toArray⟩ : ByteArray) = cs.utf8Encode := by
    apply ByteArray.ext
    simp [List.utf8Encode, List.data_toByteArray]
  unfold decodeLine
  rw [hbytes, String.fromUTF8?, dif_pos ByteArray.isValidUTF8_utf8Encode]
  have : String.fromUTF8 cs.utf8Encode ByteArray.isValidUTF8_utf8Encode = String.ofList cs := rfl
  simp [this]

theorem data_toUTF8 (text : String) :
    text.toUTF8.data.toList = text.toList.flatMap String.utf8EncodeChar := by
  rw [String.toUTF8_eq_toByteArray, ← String.utf8Encode_toList]
  simp [List.utf8Encode, List.data_toByteArray]

/-- The bytes of a text have the lines of the text. -/
theorem lines_ofBytes (text : String) : (ofBytes text.toUTF8).lines = (ofText text).lines := by
  rw [ofBytes, ofText, data_toUTF8, splitAfter_encode, List.map_map]
  exact List.map_congr_left fun piece _ => decodeLine_encode piece

/-- The source hands out the text and comes to its end. -/
structure Contains (s : LineSource) (text : String) : Prop where
  lines : s.lines = (ofText text).lines
  ending : s.ending = .clean

theorem contains_ofText (text : String) : (ofText text).Contains text := ⟨rfl, rfl⟩

theorem contains_ofBytes (text : String) : (ofBytes text.toUTF8).Contains text :=
  ⟨lines_ofBytes text, rfl⟩

/-- What stands behind the text: nothing. -/
theorem Contains.holds {s : LineSource} {text : String} (h : s.Contains text) :
    ∃ behind : LineSource, behind.Drained ∧ behind.Holds [] s text.toList := by
  refine ⟨⟨[], .clean, s.owned⟩, ⟨rfl, rfl⟩, text.toList, rfl, ?_, Or.inl rfl,
    Or.inr (Or.inr ⟨rfl, rfl⟩)⟩
  obtain ⟨lines, ending, owned⟩ := s
  obtain ⟨hlines, hending⟩ := h
  simp only at hlines hending
  rw [hlines, hending, ofText, List.append_nil]

end LineSource

end DeskCalc
