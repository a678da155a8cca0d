import QuayTimeline.CommandLine.Program

/-! # Text as bytes

A text is read back from its bytes, and its bytes hold a line feed only where the text does. -/

namespace QuayTimeline

open CommandLine (encode)
open StopPlaceLines (lineFeed decode?)

theorem toList_loop_byteArray (bytes : ByteArray) (i : Nat) (before : List UInt8) :
    ByteArray.toList.loop bytes i before = before.reverse ++ bytes.data.toList.drop i := by
  fun_induction ByteArray.toList.loop bytes i before with
  | case1 i before inside ih =>
    have split := List.drop_eq_getElem_cons (l := bytes.data.toList) inside
    rw [ih, split, List.reverse_cons, List.append_assoc]
    simp [ByteArray.get!, inside]
  | case2 i before outside =>
    rw [List.drop_eq_nil_of_le (Nat.le_of_not_lt outside), List.append_nil]

theorem toList_byteArray (bytes : ByteArray) : bytes.toList = bytes.data.toList := by
  rw [ByteArray.toList, toList_loop_byteArray, List.reverse_nil, List.nil_append, List.drop_zero]

theorem encode_eq_flatMap (cs : List Char) : encode cs = cs.flatMap String.utf8EncodeChar := by
  rw [encode, toList_byteArray, String.toUTF8_eq_toByteArray, String.toByteArray_ofList,
    List.utf8Encode, List.toList_data_toByteArray]

theorem encode_nil : encode [] = [] :=
  encode_eq_flatMap []

theorem encode_cons (c : Char) (cs : List Char) :
    encode (c :: cs) = String.utf8EncodeChar c ++ encode cs := by
  simp only [encode_eq_flatMap, List.flatMap_cons]

theorem encode_append (cs ds : List Char) : encode (cs ++ ds) = encode cs ++ encode ds := by
  simp only [encode_eq_flatMap, List.flatMap_append]

theorem ofNat_eq_ofNat_iff {m n : Nat} : UInt8.ofNat m = UInt8.ofNat n ↔ m % 256 = n % 256 := by
  rw [← UInt8.toNat_inj, UInt8.toNat_ofNat', UInt8.toNat_ofNat']

/-- A byte below 128 stands in the character of its number only: characters of one byte are that
byte, and all others are of bytes from 128 on. -/
theorem ofNat_not_mem_utf8EncodeChar {n : Nat} (ascii : n < 128) {c : Char} (other : c.toNat ≠ n) :
    UInt8.ofNat n ∉ String.utf8EncodeChar c := by
  have other : c.val.toNat ≠ n := other
  simp only [String.utf8EncodeChar]
  generalize c.val.toNat = m at other
  split
  next => simp only [List.mem_singleton, ofNat_eq_ofNat_iff]; omega
  next =>
    split
    next => simp only [List.mem_cons, List.not_mem_nil, or_false, ofNat_eq_ofNat_iff]; omega
    next =>
      split
      next => simp only [List.mem_cons, List.not_mem_nil, or_false, ofNat_eq_ofNat_iff]; omega
      next => simp only [List.mem_cons, List.not_mem_nil, or_false, ofNat_eq_ofNat_iff]; omega

theorem exists_utf8EncodeChar_eq_append (c : Char) :
    ∃ bytes byte, String.utf8EncodeChar c = bytes ++ [byte] := by
  have there : String.utf8EncodeChar c ≠ [] := by
    apply List.ne_nil_of_length_pos
    rw [String.length_utf8EncodeChar]
    exact c.utf8Size_pos
  exact ⟨_, _, (List.dropLast_concat_getLast there).symm⟩

theorem lineFeed_not_mem_encode {cs : List Char} (oneLine : '\n' ∉ cs) : lineFeed ∉ encode cs := by
  rw [encode_eq_flatMap, List.mem_flatMap]
  rintro ⟨c, member, found⟩
  have other : c.toNat ≠ 10 := by
    intro same
    obtain rfl : c = '\n' := Char.ext (UInt32.toNat_inj.mp same)
    exact oneLine member
  exact ofNat_not_mem_utf8EncodeChar (by decide) other found

theorem decode?_encode (cs : List Char) : decode? (encode cs) = some cs := by
  have bytes : (⟨(encode cs).toArray⟩ : ByteArray) = (String.ofList cs).toByteArray := by
    rw [encode, toList_byteArray, Array.toArray_toList]
    rfl
  have valid : (String.ofList cs).toByteArray.IsValidUTF8 := (String.ofList cs).isValidUTF8
  rw [decode?, bytes, String.fromUTF8?, dif_pos valid]
  exact congrArg some String.toList_ofList

theorem encode_of_decode? {bytes : List UInt8} {cs : List Char} (read : decode? bytes = some cs) :
    encode cs = bytes := by
  obtain ⟨s, found, rfl⟩ := Option.map_eq_some_iff.mp read
  unfold String.fromUTF8? at found
  split at found
  next valid =>
    cases found
    rw [encode, toList_byteArray, String.ofList_toList]
    rfl
  next => cases found

end QuayTimeline
