import QuayTimeline.Json.Quoted

/-! # Strings read back

A character in writing is read as one piece, and the pieces of a string join to its characters. A
piece in hexadecimal digits stands for a character below the space, so it is half of no pair. -/

namespace QuayTimeline.Json

open Text

/-- The piece as which a character in writing is read. -/
def pieceOf (c : Char) : Piece :=
  if c.toNat < 0x20 ∧ c ∉ ['\x08', '\x0c', '\n', '\r', '\t'] then .unit c.toNat else .char c

theorem hexDigit?_digitChar {n : Nat} (small : n < 16) : hexDigit? (Nat.digitChar n) = some n := by
  have all : ∀ m : Fin 16, hexDigit? (Nat.digitChar m) = some m.val := by decide
  exact all ⟨n, small⟩

theorem unit?_of_lt {n : Nat} (small : n < 0x20) :
    unit? ['0', '0', Nat.digitChar (n / 16), Nat.digitChar (n % 16)] = some n := by
  have zero : hexDigit? '0' = some 0 := by decide
  have high : hexDigit? (Nat.digitChar (n / 16)) = some (n / 16) := hexDigit?_digitChar (by omega)
  have low : hexDigit? (Nat.digitChar (n % 16)) = some (n % 16) := hexDigit?_digitChar (by omega)
  simp only [unit?, takeHex?, zero, high, low, Option.bind_eq_bind, Option.bind_some,
    Option.map_some, Option.pure_def]
  exact congrArg some (show 0 * 4096 + (0 * 256 + (n / 16 * 16 + (n % 16 * 1 + 0))) = n by omega)

theorem takePieces?_escape {c escaped : Char} (known : escapes.lookup c = some escaped)
    (rest : List Char) :
    takePieces? ('\\' :: c :: rest) =
      (takePieces? rest).map fun (pieces, rest) => (.char escaped :: pieces, rest) := by
  have notUnit : c ≠ 'u' := by
    rintro rfl
    cases known
  rw [takePieces?.eq_def]
  split
  next same => cases same
  next same => cases same
  next same => exact absurd (List.cons.inj (List.cons.inj same).2).1 notUnit
  next same =>
    cases same
    rw [known]
    cases takePieces? rest <;> rfl
  next escape same =>
    cases same
    exact absurd rfl (escape c rest rfl)

theorem takePieces?_plain {c : Char} (notQuote : c ≠ '"') (notEscape : c ≠ '\\')
    (notControl : ¬ c.toNat < 0x20) (rest : List Char) :
    takePieces? (c :: rest) =
      (takePieces? rest).map fun (pieces, rest) => (.char c :: pieces, rest) := by
  rw [takePieces?.eq_def]
  split
  next same => cases same
  next same => exact absurd (List.cons.inj same).1 notQuote
  next same => exact absurd (List.cons.inj same).1 notEscape
  next same => exact absurd (List.cons.inj same).1 notEscape
  next same =>
    cases same
    rw [if_neg (not_or.mpr ⟨notEscape, notControl⟩)]
    cases takePieces? rest <;> rfl

theorem takePieces?_quotedChar (c : Char) (rest : List Char) :
    takePieces? (quotedChar c ++ rest) =
      (takePieces? rest).map fun (pieces, rest) => (pieceOf c :: pieces, rest) := by
  rw [quotedChar.eq_def]
  -- Seven characters have a letter of their own. The other control characters are written as units.
  split
  · exact takePieces?_escape rfl rest
  · exact takePieces?_escape rfl rest
  · exact takePieces?_escape rfl rest
  · exact takePieces?_escape rfl rest
  · exact takePieces?_escape rfl rest
  · exact takePieces?_escape rfl rest
  · exact takePieces?_escape rfl rest
  next notQuote notEscape notBackspace notFeed notLine notReturn notTab =>
    split
    next control =>
      have piece : pieceOf c = .unit c.toNat := if_pos ⟨control, by simp_all⟩
      simp only [List.cons_append, List.nil_append, takePieces?, unit?_of_lt control, piece,
        Option.bind_eq_bind, Option.bind_some]
      cases takePieces? rest <;> rfl
    next plain =>
      have piece : pieceOf c = .char c := if_neg fun special => plain special.1
      rw [List.singleton_append, takePieces?_plain notQuote notEscape plain, piece]

theorem takePieces?_quoted (cs rest : List Char) :
    takePieces? (cs.flatMap quotedChar ++ '"' :: rest) = some (cs.map pieceOf, rest) := by
  induction cs with
  | nil => rfl
  | cons c cs ih =>
    rw [List.flatMap_cons, List.append_assoc, takePieces?_quotedChar, ih]
    rfl

/-- A code unit below those of pairs stands for a character by itself. -/
theorem joinPieces?_unit_cons {n : Nat} (alone : n < 0xD800) (pieces : List Piece) :
    joinPieces? (.unit n :: pieces) = (joinPieces? pieces).map (Char.ofNat n :: ·) := by
  have notLeading : isLeadingUnit n = false := by
    simp only [isLeadingUnit, Bool.and_eq_false_iff, decide_eq_false_iff_not]
    omega
  have notTrailing : isTrailingUnit n = false := by
    simp only [isTrailingUnit, Bool.and_eq_false_iff, decide_eq_false_iff_not]
    omega
  cases pieces with
  | nil => simp [joinPieces?, notLeading, notTrailing]
  | cons piece pieces => cases piece <;> simp [joinPieces?, notLeading, notTrailing]

theorem joinPieces?_map_pieceOf (cs : List Char) : joinPieces? (cs.map pieceOf) = some cs := by
  induction cs with
  | nil => rfl
  | cons c cs ih =>
    rw [List.map_cons, pieceOf]
    split
    next special =>
      rw [joinPieces?_unit_cons (by omega), ih, Char.ofNat_toNat]
      rfl
    next => rw [joinPieces?, ih, Option.map_some]

/-- A string in writing is read, whatever follows its closing quote. -/
theorem takeQuoted?_quoted (s : String) (rest : List Char) :
    takeQuoted? (s.toList.flatMap quotedChar ++ '"' :: rest) = some (some s, rest) := by
  simp only [takeQuoted?, takePieces?_quoted, Option.map_some, joinPieces?_map_pieceOf,
    String.ofList_toList]

theorem digitChar_ne_lineFeed {n : Nat} (small : n < 16) : Nat.digitChar n ≠ '\n' := by
  have all : ∀ m : Fin 16, Nat.digitChar m ≠ '\n' := by decide
  exact all ⟨n, small⟩

theorem lineFeed_not_mem_quotedChar (c : Char) : '\n' ∉ quotedChar c := by
  rw [quotedChar.eq_def]
  split
  · decide
  · decide
  · decide
  · decide
  · decide
  · decide
  · decide
  next notLine _ _ =>
    split
    next control =>
      have high := digitChar_ne_lineFeed (n := c.toNat / 16) (by omega)
      have low := digitChar_ne_lineFeed (n := c.toNat % 16) (by omega)
      simp [high.symm, low.symm]
    next => exact fun member => notLine (List.mem_singleton.mp member).symm

/-- No line ends within a string in writing. -/
theorem lineFeed_not_mem_quoted (s : String) : '\n' ∉ quoted s := by
  intro member
  simp only [quoted, List.cons_append, List.mem_cons, List.mem_append, List.mem_flatMap,
    List.not_mem_nil, or_false] at member
  rcases member with quote | ⟨c, -, member⟩ | quote
  · cases quote
  · exact lineFeed_not_mem_quotedChar c member
  · cases quote

end QuayTimeline.Json
