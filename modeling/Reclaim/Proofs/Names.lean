import Reclaim.Proofs.Globals

/-!
# Names in the heap

The key of an entry is a string: its object word says how many bytes there are, and the words behind
it hold them packed. What is read from them is the text that was written, unless there are more
bytes than an object word can tell.

Results:
* `Text.decode_encode`: a text is read as it was written.
* `Arena.Holds.textAt?`: so is the text of a string or a symbol in the heap.
-/

namespace Reclaim

namespace Text

theorem toList_loop (bs : ByteArray) (i : Nat) (acc : List UInt8) :
    ByteArray.toList.loop bs i acc = acc.reverse ++ bs.data.toList.drop i := by
  fun_induction ByteArray.toList.loop bs i acc with
  | case1 i acc hlt ih =>
    have hi : i < bs.data.toList.length := by simpa using hlt
    have hget : bs.get! i = bs.data.toList[i] := by
      rw [ByteArray.get!, Array.getElem_toList]
      exact getElem!_pos ..
    rw [ih, List.drop_eq_getElem_cons hi, hget, List.reverse_cons, List.append_assoc]
    rfl
  | case2 i acc hge =>
    have hle : bs.data.toList.length ≤ i := by simpa using hge
    rw [List.drop_eq_nil_of_le hle, List.append_nil]

/-- The bytes of a text are those of its characters. -/
theorem encode_eq (s : String) : encode s = s.toList.flatMap String.utf8EncodeChar := by
  have hlist : ∀ bs : ByteArray, bs.toList = bs.data.toList := fun bs => toList_loop bs 0 []
  rw [encode, String.toUTF8_eq_toByteArray, ← String.utf8Encode_toList, List.utf8Encode, hlist,
    List.toList_data_toByteArray]

/-- Four bytes are enough to tell a character. -/
theorem decodeChar?_append (c : Char) (rest : List UInt8) :
    decodeChar? (String.utf8EncodeChar c ++ rest) = some c := by
  have hlen : (String.utf8EncodeChar c).length ≤ 4 := by
    rw [String.length_utf8EncodeChar]
    exact Char.utf8Size_le_four c
  rw [decodeChar?, List.take_append, List.take_of_length_le hlen, List.toByteArray_append]
  exact ByteArray.utf8DecodeChar?_utf8EncodeChar_append

theorem decodeChars_append (c : Char) (rest : List UInt8) :
    decodeChars (String.utf8EncodeChar c ++ rest) = c :: decodeChars rest := by
  have hdec := decodeChar?_append c rest
  have hlen := String.length_utf8EncodeChar c
  cases he : String.utf8EncodeChar c with
  | nil => exact absurd he String.utf8EncodeChar_ne_nil
  | cons b bs =>
    rw [he] at hdec hlen
    rw [List.cons_append, decodeChars, ← List.cons_append, hdec]
    dsimp only
    rw [← hlen, List.length_cons, Nat.add_sub_cancel, List.drop_left]

/-- A text is read as it was written. -/
theorem decode_encode (s : String) : decode (encode s) = s := by
  have hchars : ∀ cs : List Char, decodeChars (cs.flatMap String.utf8EncodeChar) = cs := by
    intro cs
    induction cs with
    | nil => rw [List.flatMap_nil, decodeChars]
    | cons c cs ih => rw [List.flatMap_cons, decodeChars_append, ih]
  rw [decode, encode_eq, hchars, String.ofList_toList]

end Text

namespace Arena

variable {h : Arena} {o : Nat}

theorem Holds.head {ws : List Word} {w : Word} (hh : h.Holds o (w :: ws)) (hk : h.tag o ≠ none) :
    h.word o = w :=
  (Option.some.inj (hh 0 (payload_pos hk))).symm

/-- The bytes of a string or a symbol are those that were written. -/
theorem Holds.text {t : Tag} {bytes : List UInt8} (ht : t = .string ∨ t = .symbol)
    (hh : h.Holds o (objectWord t (UInt64.ofNat bytes.length) :: Text.pack bytes))
    (hk : h.tag o ≠ none) (hlen : bytes.length < 0x100000000000000) : h.tag o = some t ∧
    h.payload o = textWords bytes.length ∧
      (List.range (wordsFor bytes.length)).map (fun i => h.word (o + 1 + i)) = Text.pack bytes ∧
      h.bytes o = bytes := by
  have hhead : h.word o = objectWord t (UInt64.ofNat bytes.length) := hh.head hk
  have htag := tag_of_objectWord hhead
  have hcount : (h.word o >>> 8).toNat = bytes.length := by
    rw [hhead, shiftRight_objectWord, toNat_ofNat_of_lt (by omega)]
    exact Nat.mod_eq_of_lt hlen
  have hpay : h.payload o = textWords bytes.length := by
    rw [payload_of_text (by rcases ht with rfl | rfl <;> simp [htag]), hcount]
  have hwords : (List.range (wordsFor bytes.length)).map (fun i => h.word (o + 1 + i)) =
      Text.pack bytes := by
    refine List.ext_getElem (by simp [Text.length_pack]) fun i hi hi' => ?_
    have hi : i < wordsFor bytes.length := by simpa using hi
    have hget := hh (i + 1) (by rw [hpay, textWords]; omega)
    rw [List.getElem?_cons_succ, List.getElem?_eq_getElem hi'] at hget
    rw [List.getElem_map, List.getElem_range, Nat.add_assoc, Nat.add_comm 1 i]
    exact (Option.some.inj hget).symm
  refine ⟨htag, hpay, hwords, ?_⟩
  rw [Arena.bytes, hcount, hwords, Text.take_unpack_pack]

/-- The text of a string or a symbol is the one that was written. -/
theorem Holds.textAt? {t : Tag} {s : String} {v : Value} (ht : t = .string ∨ t = .symbol)
    (hv : v.ref? = some o) (hh : h.Holds o
      (objectWord t (UInt64.ofNat (Text.encode s).length) :: Text.pack (Text.encode s)))
      (hk : h.tag o ≠ none) (hlen : (Text.encode s).length < 0x100000000000000) :
      h.textAt? v = some s := by
  obtain ⟨htag, -, -, hbytes⟩ := hh.text ht hk hlen
  have htext : h.isText o = true := by
    rw [isText, htag]
    rcases ht with rfl | rfl <;> rfl
  rw [Arena.textAt?, hv, Option.filter_some, if_pos htext, Option.map_some, hbytes,
    Text.decode_encode]

/-- So is the text of the key of an entry. -/
theorem textAt?_of_holds {name : String} {v : Value} (hv : v.ref? = some o)
    (hh : h.Holds o (MutatorM.stringWords (Text.encode name))) (hk : h.tag o ≠ none)
    (hlen : (Text.encode name).length < 0x100000000000000) : h.textAt? v = some name :=
  Holds.textAt? (.inl rfl) hv hh hk hlen

end Arena

end Reclaim
