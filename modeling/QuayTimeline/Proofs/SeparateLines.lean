import QuayTimeline.Proofs.StopPlaceLines

/-! # Lines by themselves

Each line is read without regard to those before it and after it: what is wrong with one neither
stops nor shifts the others. Faults are numbered by the line feeds before their lines, whether these
lines hold items or not. -/

namespace QuayTimeline

open Text
open CommandLine (encode)
open StopPlaceLines (lineFeed carriageReturn decode?)

namespace LineError

/-- The fault of a line that stands some lines further down. -/
def raisedBy (lines : Nat) : LineError → LineError
  | unreadable line => unreadable (line + lines)
  | invalid line cause => invalid (line + lines) cause

theorem raisedBy_zero (error : LineError) : error.raisedBy 0 = error := by
  cases error <;> rfl

theorem raisedBy_raisedBy (m n : Nat) (error : LineError) :
    (error.raisedBy m).raisedBy n = error.raisedBy (m + n) := by
  cases error <;> simp [raisedBy, Nat.add_assoc]

end LineError

/-! ## Text without the space around it -/

namespace Text

theorem trimEnd_append_blank {c : Char} (blank : isBlank c = true) (cs : List Char) :
    trimEnd (cs ++ [c]) = trimEnd cs := by
  simp [trimEnd, blank]

theorem trim_append_blank {c : Char} (blank : isBlank c = true) (cs : List Char) :
    trim (cs ++ [c]) = trim cs := by
  rw [trim, trim, trimStart, trimStart, List.dropWhile_append]
  split
  next empty => simp [List.isEmpty_iff.mp empty, blank]
  next => exact trimEnd_append_blank blank _

theorem trimEnd_eq_nil_iff {cs : List Char} : trimEnd cs = [] ↔ ∀ c ∈ cs, isBlank c = true := by
  simp [trimEnd]

theorem trim_eq_nil_iff {cs : List Char} : trim cs = [] ↔ ∀ c ∈ cs, isBlank c = true := by
  rw [trim, trimEnd_eq_nil_iff, trimStart]
  constructor
  · intro rest
    have split := List.takeWhile_append_dropWhile (p := isBlank) (l := cs)
    rw [← split]
    intro c member
    cases List.mem_append.mp member with
    | inl member => exact List.mem_takeWhile_imp member
    | inr member => exact rest c member
  · intro blank c member
    exact blank c ((List.dropWhile_sublist _).mem member)

end Text

namespace StopPlaceLines

/-! ## Carriage returns at the end -/

theorem content_append_carriageReturn (line : List UInt8) :
    content (line ++ [carriageReturn]) = content line := by
  simp [content]

theorem exists_eq_content_append (line : List UInt8) :
    ∃ n, line = content line ++ List.replicate n carriageReturn := by
  induction line using List.reverseRecOn with
  | nil => exact ⟨0, rfl⟩
  | append_singleton line byte ih =>
    by_cases isReturn : byte = carriageReturn
    · obtain ⟨n, split⟩ := ih
      refine ⟨n + 1, ?_⟩
      rw [isReturn, content_append_carriageReturn, List.replicate_succ', ← List.append_assoc,
        ← split]
    · exact ⟨0, by rw [content_append isReturn, List.replicate_zero, List.append_nil]⟩

theorem encode_carriageReturn : encode ['\r'] = [carriageReturn] :=
  encode_eq_flatMap ['\r']

theorem isBlank_carriageReturn : isBlank '\r' = true := by
  decide

/-- With the carriage returns at its end a line loses nothing but blanks. -/
theorem exists_decode?_content_encode (cs : List Char) :
    ∃ ds, decode? (content (encode cs)) = some ds ∧ trim ds = trim cs := by
  induction cs using List.reverseRecOn with
  | nil =>
    have empty := decode?_encode []
    rw [encode_nil] at empty ⊢
    exact ⟨[], empty, rfl⟩
  | append_singleton cs c ih =>
    by_cases isReturn : c = '\r'
    · subst isReturn
      rw [encode_append, encode_carriageReturn, content_append_carriageReturn,
        trim_append_blank isBlank_carriageReturn]
      exact ih
    · have other : carriageReturn ∉ String.utf8EncodeChar c := by
        apply ofNat_not_mem_utf8EncodeChar (n := 13) (by decide)
        intro same
        exact isReturn (Char.ext (UInt32.toNat_inj.mp same))
      obtain ⟨bytes, byte, split⟩ := exists_utf8EncodeChar_eq_append c
      have notLast : byte ≠ carriageReturn := fun same => other (by simp [split, same])
      have same : content (encode (cs ++ [c])) = encode (cs ++ [c]) := by
        have single : encode [c] = bytes ++ [byte] :=
          (encode_eq_flatMap [c]).trans (by simp [split])
        rw [encode_append, single, ← List.append_assoc]
        exact content_append notLast _
      exact ⟨cs ++ [c], by rw [same]; exact decode?_encode _, rfl⟩

theorem encode_replicate_carriageReturn (n : Nat) :
    encode (List.replicate n '\r') = List.replicate n carriageReturn := by
  induction n with
  | zero => exact encode_nil
  | succ n ih =>
    rw [List.replicate_succ', List.replicate_succ', encode_append, ih, encode_carriageReturn]

theorem decode?_content_eq_none {line : List UInt8} (noText : ∀ cs, encode cs ≠ line) :
    decode? (content line) = none := by
  cases read : decode? (content line) with
  | none => rfl
  | some cs =>
    obtain ⟨n, split⟩ := exists_eq_content_append line
    apply absurd _ (noText (cs ++ List.replicate n '\r'))
    rw [encode_append, encode_replicate_carriageReturn, encode_of_decode? read]
    exact split.symm

/-! ## One line -/

/-- The items of an input that is a single line, told by the texts of these bytes. -/
inductive LineYields (line : List UInt8) : List (Except LineError StopPlace) → Prop where
  | blank {cs : List Char} (text : encode cs = line) (blank : ∀ c ∈ cs, isBlank c = true) :
      LineYields line []
  | item {cs : List Char} {c : Char} (text : encode cs = line) (member : c ∈ cs)
      (other : isBlank c = false) :
      LineYields line [(StopPlace.read (trim cs)).mapError (.invalid 1)]
  | unreadable (noText : ∀ cs, encode cs ≠ line) : LineYields line [.error (.unreadable 1)]

theorem lineYields_readLine? (line : List UInt8) : LineYields line (readLine? line 1).toList := by
  by_cases text : ∃ cs, encode cs = line
  · obtain ⟨cs, text⟩ := text
    obtain ⟨ds, found, same⟩ := exists_decode?_content_encode cs
    rw [text] at found
    by_cases blank : ∀ c ∈ cs, isBlank c = true
    · have nothing := same.trans (trim_eq_nil_iff.mpr blank)
      simp only [readLine?, found, nothing]
      exact .blank text blank
    · have something : trim cs ≠ [] := mt trim_eq_nil_iff.mp blank
      have item : readLine? line 1 = some ((StopPlace.read (trim cs)).mapError (.invalid 1)) := by
        obtain ⟨c, rest, split⟩ := List.exists_cons_of_ne_nil something
        simp only [readLine?, found, same, split]
      simp only [not_forall, Bool.not_eq_true] at blank
      obtain ⟨c, member, other⟩ := blank
      rw [item]
      exact .item text member other
  · rw [readLine?, decode?_content_eq_none (not_exists.mp text)]
    exact .unreadable (not_exists.mp text)

theorem readLine?_append_carriageReturn (line : List UInt8) (number : Nat) :
    readLine? (line ++ [carriageReturn]) number = readLine? line number := by
  rw [readLine?, readLine?, content_append_carriageReturn]

/-! ## Lines further down -/

/-- The items of an input, where it stands some lines further down. -/
def raise (lines : Nat) (items : List (Except LineError StopPlace)) :
    List (Except LineError StopPlace) :=
  items.map (·.mapError (.raisedBy lines))

theorem raise_zero (items : List (Except LineError StopPlace)) : raise 0 items = items := by
  apply List.map_id''
  intro item
  cases item with
  | ok place => rfl
  | error error => exact congrArg _ error.raisedBy_zero

theorem raise_raise (m n : Nat) (items : List (Except LineError StopPlace)) :
    raise n (raise m items) = raise (m + n) items := by
  rw [raise, raise, raise, List.map_map]
  apply List.map_congr_left
  intro item _
  cases item with
  | ok place => rfl
  | error error => exact congrArg _ (error.raisedBy_raisedBy m n)

theorem readLine?_raise (line : List UInt8) (number lines : Nat) :
    (readLine? line (number + lines)).toList = raise lines (readLine? line number).toList := by
  cases decoded : decode? (content line) with
  | none => simp only [readLine?, decoded]; rfl
  | some cs =>
    cases text : trim cs with
    | nil => simp only [readLine?, decoded, text]; rfl
    | cons c rest =>
      simp only [readLine?, decoded, text]
      cases StopPlace.read (c :: rest) with
      | ok place => rfl
      | error error => rfl

theorem readLines_raise (first n : Nat) (lines : List (List UInt8)) :
    readLines (first + n) lines = raise n (readLines first lines) := by
  induction lines generalizing first with
  | nil => rfl
  | cons line lines ih =>
    have next : first + n + 1 = first + 1 + n := by omega
    rw [readLines_cons, readLines_cons, readLine?_raise, next, ih, raise, raise, raise,
      List.map_append]

/-! ## Inputs put together -/

/-- What is put behind an input lengthens its last line. -/
theorem exists_physicalLines_append (before : List UInt8) :
    ∃ earlier line, ∀ more, lineFeed ∉ more →
      physicalLines (before ++ more) = earlier ++ [line ++ more] := by
  induction before with
  | nil => exact ⟨[], [], fun more oneLine => physicalLines_of_not_mem oneLine⟩
  | cons byte before ih =>
    obtain ⟨earlier, line, lengthened⟩ := ih
    by_cases feed : byte = lineFeed
    · refine ⟨[] :: earlier, line, fun more oneLine => ?_⟩
      rw [List.cons_append, physicalLines, if_pos feed, lengthened more oneLine]
      rfl
    · cases earlier with
      | nil =>
        refine ⟨[], byte :: line, fun more oneLine => ?_⟩
        rw [List.cons_append, physicalLines, if_neg feed, lengthened more oneLine]
        rfl
      | cons first earlier =>
        refine ⟨(byte :: first) :: earlier, line, fun more oneLine => ?_⟩
        rw [List.cons_append, physicalLines, if_neg feed, lengthened more oneLine]
        rfl

/-- A line feed at the end ends the last line, and starts none that holds an item. -/
theorem read_append_lineFeed (input : List UInt8) : read (input ++ [lineFeed]) = read input := by
  have empty : readLines (1 + (physicalLines input).length) [[]] = [] := by
    rw [readLines_cons, readLine?_nil]
    rfl
  rw [read_eq_readLines, physicalLines_append_lineFeed, readLines_append]
  exact (congrArg _ empty).trans (List.append_nil _)

theorem read_append_of_getLast? {before : List UInt8} (ended : before.getLast? = some lineFeed)
    (after : List UInt8) :
    read (before ++ after) = read before ++ raise (before.count lineFeed) (read after) := by
  obtain ⟨start, rfl⟩ := List.getLast?_eq_some_iff.mp ended
  rw [read_append_lineFeed, List.append_assoc, List.singleton_append, read_eq_readLines,
    physicalLines_append_lineFeed, readLines_append, readLines_raise, length_physicalLines,
    List.count_append, List.count_singleton_self]
  rfl

theorem read_carriageReturn_lineFeed (before after : List UInt8) :
    read (before ++ carriageReturn :: lineFeed :: after) = read (before ++ lineFeed :: after) := by
  obtain ⟨earlier, line, lengthened⟩ := exists_physicalLines_append before
  have bare : physicalLines before = earlier ++ [line] := by
    simpa using lengthened [] List.not_mem_nil
  have returned := lengthened [carriageReturn] (by decide)
  have inner : before ++ carriageReturn :: lineFeed :: after =
      (before ++ [carriageReturn]) ++ lineFeed :: after := by simp
  rw [inner, read_eq_readLines, read_eq_readLines, physicalLines_append_lineFeed,
    physicalLines_append_lineFeed, bare, returned]
  simp only [List.append_assoc, readLines_append, List.singleton_append, readLines_cons,
    readLine?_append_carriageReturn]

theorem read_of_not_mem {line : List UInt8} (oneLine : lineFeed ∉ line) :
    read line = (readLine? line 1).toList := by
  rw [read_eq_readLines, physicalLines_of_not_mem oneLine, readLines_cons]
  exact List.append_nil _

theorem raise_append (n : Nat) (items others : List (Except LineError StopPlace)) :
    raise n (items ++ others) = raise n items ++ raise n others :=
  List.map_append

theorem getLast?_append_lineFeed (line : List UInt8) :
    (line ++ [lineFeed]).getLast? = some lineFeed := by
  simp

/-- Lines are read one by one, and only their numbers depend on the lines before. -/
theorem read_intercalate {lines : List (List UInt8)} (oneLine : ∀ line ∈ lines, lineFeed ∉ line)
    (before : Nat) :
    raise before (read ([lineFeed].intercalate lines)) =
      (lines.zipIdx before).flatMap fun (line, before) => raise before (read line) := by
  induction lines generalizing before with
  | nil => rfl
  | cons line lines ih =>
    have others := ih (fun line member => oneLine line (List.mem_cons_of_mem _ member)) (before + 1)
    cases lines with
    | nil => simp
    | cons next lines =>
      have split : [lineFeed].intercalate (line :: next :: lines) =
          (line ++ [lineFeed]) ++ [lineFeed].intercalate (next :: lines) := by
        simp [List.intercalate]
      have here := oneLine line List.mem_cons_self
      have counted : (line ++ [lineFeed]).count lineFeed = 1 := by
        rw [List.count_append, List.count_eq_zero_of_not_mem here, List.count_singleton_self]
      rw [split, read_append_of_getLast? (getLast?_append_lineFeed line), read_append_lineFeed,
        counted, raise_append, raise_raise, Nat.add_comm 1, others, List.zipIdx_cons]
      rfl

/-- Each line is read by itself: input that follows a line feed gives the items it gives alone, with
their lines counted from further down; a carriage return before a line feed is no part of the line;
and the items of a line are told by its bytes. -/
theorem read_each_line_by_itself :
    (∀ before after : List UInt8, before.getLast? = some lineFeed →
      read (before ++ after) = read before ++ raise (before.count lineFeed) (read after)) ∧
    (∀ before after : List UInt8,
      read (before ++ carriageReturn :: lineFeed :: after) = read (before ++ lineFeed :: after)) ∧
    (∀ lines : List (List UInt8), (∀ line ∈ lines, lineFeed ∉ line) →
      read ([lineFeed].intercalate lines) =
        lines.zipIdx.flatMap fun (line, before) => raise before (read line)) ∧
    ∀ line : List UInt8, lineFeed ∉ line → LineYields line (read line) := by
  refine ⟨fun before after ended => read_append_of_getLast? ended after,
    read_carriageReturn_lineFeed, ?_, ?_⟩
  · intro lines oneLine
    rw [← raise_zero (read _)]
    exact read_intercalate oneLine 0
  · intro line oneLine
    rw [read_of_not_mem oneLine]
    exact lineYields_readLine? line

/-- Bytes that are no text, a line of space, and a letter. -/
def unreadableLines : List UInt8 := [255, 10, 32, 10, 120, 10]

/-- The stop place on the last line is read whatever stands on the lines before it. -/
theorem read_each_line_by_itself_unreadableLines :
    let last := encode twoVersions.text
    unreadableLines.getLast? = some lineFeed ∧
    (∀ line ∈ [[255], [32], [120], last], lineFeed ∉ line) ∧
    read (unreadableLines ++ last) =
      [.error (.unreadable 1), .error (.invalid 3 .malformed), .ok twoVersions] ∧
    read (unreadableLines ++ last) = raise 0 (read [255]) ++ (raise 1 (read [32]) ++
      (raise 2 (read [120]) ++ (raise 3 (read last) ++ []))) ∧
    read ([255] ++ carriageReturn :: lineFeed :: [32, 10, 120, 10]) =
      [.error (.unreadable 1), .error (.invalid 3 .malformed)] ∧
    LineYields [120] [.error (.invalid 1 .malformed)] ∧ LineYields last [.ok twoVersions] := by
  intro last
  have ended : unreadableLines.getLast? = some lineFeed := by decide
  have lastLine : lineFeed ∉ last := lineFeed_not_mem_encode twoVersions.lineFeed_not_mem_text
  have oneLine : ∀ line ∈ [[255], [32], [120], last], lineFeed ∉ line := by
    simp only [List.forall_mem_cons]
    exact ⟨by decide, by decide, by decide, lastLine, fun _ none => nomatch none⟩
  have start : read unreadableLines =
      [.error (.unreadable 1), .error (.invalid 3 .malformed)] := by cbv
  have letter : read [120] = [.error (.invalid 1 .malformed)] := by cbv
  have bare : twoVersions.IsBare := ⟨rfl, by decide⟩
  have place : read last = [.ok twoVersions] := by
    rw [read_of_not_mem lastLine, readLine?_text bare.isKept bare.holdsIntegers]
    rfl
  obtain ⟨appended, returned, together, yields⟩ := read_each_line_by_itself
  have whole := appended unreadableLines last ended
  rw [start, place] at whole
  have letterHere := yields [120] (oneLine _ (by simp))
  rw [letter] at letterHere
  have placeHere := yields last lastLine
  rw [place] at placeHere
  have separated := together _ oneLine
  have joined : [lineFeed].intercalate [[255], [32], [120], last] = unreadableLines ++ last := by
    simp [List.intercalate, unreadableLines, lineFeed]
  rw [joined] at separated
  exact ⟨ended, oneLine, whole, separated, (returned [255] [32, 10, 120, 10]).trans start,
    letterHere, placeHere⟩

end StopPlaceLines

end QuayTimeline
