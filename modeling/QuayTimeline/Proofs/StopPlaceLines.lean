import QuayTimeline.Proofs.Record.Kept
import QuayTimeline.Proofs.Record.Text
import QuayTimeline.Proofs.Text.Utf8

/-! # Lines read back

Each line that is not blank is an item. Stop places that are written one in a line are read as these
stop places: a text that stands in braces keeps its line whole, as neither its end nor its start is
taken for space. -/

namespace QuayTimeline

open Text
open CommandLine (encode)

namespace StopPlace

/-- Neither a stop place nor one of its quays has other attributes. -/
structure IsBare (place : StopPlace) : Prop where
  others : place.others = []
  quays : ∀ q ∈ place.quays, q.others = []

theorem IsBare.isKept {place : StopPlace} (bare : place.IsBare) : place.IsKept where
  others := bare.others ▸ .nil _ _
  quays q member := bare.quays q member ▸ .nil _ _

theorem IsBare.holdsIntegers {place : StopPlace} (bare : place.IsBare) : place.HoldsIntegers where
  others := bare.others ▸ .nil
  quays q member := bare.quays q member ▸ .nil

end StopPlace

namespace StopPlaceLines

/-! ## Bytes and lines -/

theorem physicalLines_of_not_mem {line : List UInt8} (oneLine : lineFeed ∉ line) :
    physicalLines line = [line] := by
  induction line with
  | nil => rfl
  | cons byte line ih =>
    have notFirst : byte ≠ lineFeed := fun same => oneLine (same ▸ List.mem_cons_self)
    rw [physicalLines, if_neg notFirst, ih fun member => oneLine (List.mem_cons_of_mem _ member)]

theorem length_physicalLines (bytes : List UInt8) :
    (physicalLines bytes).length = bytes.count lineFeed + 1 := by
  induction bytes with
  | nil => rfl
  | cons byte bytes ih =>
    rw [physicalLines]
    split
    next feed => rw [feed, List.count_cons_self, List.length_cons, ih]
    next other =>
      rw [List.count_cons_of_ne other, ← ih]
      cases rest : physicalLines bytes with
      | nil => rw [rest] at ih; cases ih
      | cons line lines => rfl

/-- A line feed cuts what precedes it from what follows. -/
theorem physicalLines_append_lineFeed (before after : List UInt8) :
    physicalLines (before ++ lineFeed :: after) = physicalLines before ++ physicalLines after := by
  induction before with
  | nil => exact if_pos rfl
  | cons byte before ih =>
    rw [List.cons_append, physicalLines, physicalLines, ih]
    split
    next => rfl
    next =>
      cases rest : physicalLines before with
      | nil =>
        have counted := length_physicalLines before
        rw [rest] at counted
        cases counted
      | cons line lines => rfl

/-! ## Stop places that were written -/

/-- Stop places, each in a line of its own. -/
def linesText (places : List StopPlace) : List Char :=
  places.flatMap fun place => place.text ++ ['\n']

theorem linesText_cons (place : StopPlace) (places : List StopPlace) :
    linesText (place :: places) = place.text ++ '\n' :: linesText places := by
  rw [linesText, List.flatMap_cons, List.append_assoc]
  rfl

theorem physicalLines_linesText (places : List StopPlace) :
    physicalLines (encode (linesText places)) = places.map (encode ·.text) ++ [[]] := by
  induction places with
  | nil =>
    rw [linesText, List.flatMap_nil, encode_nil]
    rfl
  | cons place places ih =>
    have oneLine := lineFeed_not_mem_encode place.lineFeed_not_mem_text
    have split : encode (linesText (place :: places)) =
        encode place.text ++ lineFeed :: encode (linesText places) := by
      rw [linesText_cons, encode_append, encode_cons]
      rfl
    rw [split, physicalLines_append_lineFeed, physicalLines_of_not_mem oneLine, ih, List.map_cons]
    rfl

theorem content_append {byte : UInt8} (other : byte ≠ carriageReturn) (line : List UInt8) :
    content (line ++ [byte]) = line ++ [byte] := by
  simp [content, other]

theorem content_encode_text (place : StopPlace) :
    content (encode place.text) = encode place.text := by
  obtain ⟨cs, split⟩ := place.exists_text_eq
  -- The last byte is the closing brace, and no carriage return.
  have last : encode ['}'] = [125] := encode_eq_flatMap ['}']
  rw [split, encode_append, last]
  exact content_append (by decide) _

theorem trim_text (place : StopPlace) : trim place.text = place.text := by
  obtain ⟨cs, split⟩ := place.exists_text_eq
  have opening : isBlank '{' = false := by decide
  have closing : isBlank '}' = false := by decide
  rw [split, trim, List.cons_append, trimStart_cons_of_not_blank opening, trimEnd]
  simp [closing]

theorem readLine?_text {place : StopPlace} (kept : place.IsKept) (integers : place.HoldsIntegers)
    (number : Nat) : readLine? (encode place.text) number = some (.ok place) := by
  obtain ⟨cs, split⟩ := place.exists_text_eq
  have found := StopPlace.read_text kept integers
  have whole := trim_text place
  rw [readLine?, content_encode_text, decode?_encode]
  simp only
  rw [whole]
  rw [split] at found ⊢
  simp only [List.cons_append] at found ⊢
  rw [found]
  rfl

theorem readLine?_nil (number : Nat) : readLine? [] number = none := by
  have empty := decode?_encode []
  rw [encode_nil] at empty
  have same : content [] = [] := rfl
  rw [readLine?, same, empty]
  rfl

/-- Written stop places are read again. -/
theorem read_linesText {places : List StopPlace} (kept : ∀ place ∈ places, place.IsKept)
    (integers : ∀ place ∈ places, place.HoldsIntegers) :
    read (encode (linesText places)) = places.map .ok := by
  rw [read, physicalLines_linesText]
  -- The numbers of lines matter for faults only.
  generalize 1 = first
  induction places generalizing first with
  | nil =>
    simp [readLine?_nil]
  | cons place places ih =>
    have here := readLine?_text (kept place List.mem_cons_self) (integers place List.mem_cons_self)
    have others := ih (fun p member => kept p (List.mem_cons_of_mem _ member))
      (fun p member => integers p (List.mem_cons_of_mem _ member)) (first + 1)
    simp only [List.map_cons, List.cons_append, List.zipIdx_cons, List.filterMap_cons, here, others]

theorem read_linesText_of_bare {places : List StopPlace} (bare : ∀ place ∈ places, place.IsBare) :
    read (encode (linesText places)) = places.map .ok :=
  read_linesText (fun place member => (bare place member).isKept)
    fun place member => (bare place member).holdsIntegers

/-! ## Lines and items -/

/-- A line that is text, and all of it space. -/
def isBlankLine (line : List UInt8) : Bool :=
  (decode? (content line)).any (trim · = [])

/-- The items of lines that are counted from a number. -/
def readLines (first : Nat) (lines : List (List UInt8)) : List (Except LineError StopPlace) :=
  (lines.zipIdx first).filterMap fun (line, number) => readLine? line number

theorem read_eq_readLines (input : List UInt8) : read input = readLines 1 (physicalLines input) :=
  rfl

theorem readLines_cons (first : Nat) (line : List UInt8) (lines : List (List UInt8)) :
    readLines first (line :: lines) =
      (readLine? line first).toList ++ readLines (first + 1) lines := by
  rw [readLines, List.zipIdx_cons, List.filterMap_cons]
  cases item : readLine? line first <;> simp [item, readLines]

theorem readLines_append (first : Nat) (lines others : List (List UInt8)) :
    readLines first (lines ++ others) =
      readLines first lines ++ readLines (first + lines.length) others := by
  rw [readLines, List.zipIdx_append, List.filterMap_append]
  rfl

theorem readLines_take_succ {first i : Nat} {lines : List (List UInt8)} {line : List UInt8}
    (there : lines[i]? = some line) :
    readLines first (lines.take (i + 1)) =
      readLines first (lines.take i) ++ (readLine? line (first + i)).toList := by
  obtain ⟨inside, -⟩ := List.getElem?_eq_some_iff.mp there
  rw [List.take_add_one, there, readLines_append, List.length_take_of_le (Nat.le_of_lt inside)]
  rw [Option.toList_some, readLines_cons]
  exact congrArg _ (List.append_nil _)

theorem readLine?_eq_none_iff {line : List UInt8} {number : Nat} :
    readLine? line number = none ↔ isBlankLine line = true := by
  rw [readLine?, isBlankLine]
  cases decode? (content line) with
  | none => simp
  | some cs => cases blank : trim cs <;> simp [blank]

/-- Each line that is not blank is an item. -/
theorem length_readLines (first : Nat) (lines : List (List UInt8)) :
    (readLines first lines).length = lines.countP (!isBlankLine ·) := by
  induction lines generalizing first with
  | nil => rfl
  | cons line lines ih =>
    have here : (readLine? line first).toList.length = if !isBlankLine line then 1 else 0 := by
      have blank : readLine? line first = none ↔ isBlankLine line = true := readLine?_eq_none_iff
      cases item : readLine? line first <;> simp [item] at blank <;> simp [blank]
    rw [readLines_cons, List.length_append, here, ih, List.countP_cons, Nat.add_comm]

/-- An item is read from one line, and the items before it from the lines before. -/
theorem exists_line_of_readLines {first : Nat} {lines : List (List UInt8)}
    {before later : List (Except LineError StopPlace)} {item : Except LineError StopPlace}
    (split : readLines first lines = before ++ item :: later) :
    ∃ i line, lines[i]? = some line ∧ readLine? line (first + i) = some item ∧
      readLines first (lines.take i) = before := by
  induction lines generalizing first before with
  | nil => exact absurd split.symm (List.append_ne_nil_of_right_ne_nil _ (List.cons_ne_nil _ _))
  | cons line lines ih =>
    rw [readLines_cons] at split
    have further {others : List (Except LineError StopPlace)}
        (rest : readLines (first + 1) lines = others ++ item :: later)
        (joined : (readLine? line first).toList ++ others = before) :
        ∃ i found, (line :: lines)[i]? = some found ∧ readLine? found (first + i) = some item ∧
          readLines first ((line :: lines).take i) = before := by
      obtain ⟨i, found, there, itemThere, rfl⟩ := ih rest
      refine ⟨i + 1, found, there, ?_, ?_⟩
      · rwa [Nat.add_comm i, ← Nat.add_assoc]
      · rw [List.take_succ_cons, readLines_cons, joined]
    -- The first line is blank, or the item itself, or the first of those before.
    cases here : readLine? line first with
    | none =>
      rw [here] at split
      exact further split (by rw [here]; rfl)
    | some other =>
      rw [here] at split
      cases before with
      | nil =>
        obtain ⟨rfl, -⟩ := List.cons.inj split
        exact ⟨0, line, rfl, here, rfl⟩
      | cons _ before =>
        obtain ⟨rfl, rest⟩ := List.cons.inj split
        exact further rest (by rw [here]; rfl)

/-! ## Stop places that were read -/

theorem exists_read_of_readLine? {line : List UInt8} {number : Nat} {place : StopPlace}
    (found : readLine? line number = some (.ok place)) : ∃ cs, StopPlace.read cs = .ok place := by
  rw [readLine?] at found
  split at found
  next => cases found
  next =>
    split at found
    next => cases found
    next =>
      exact ⟨_, mapError_eq_ok_iff.mp (Option.some.inj found)⟩

/-- Stop places that are read can be written and read again. -/
theorem isKept_of_mem_read {input : List UInt8} {place : StopPlace}
    (member : .ok place ∈ read input) : place.IsKept := by
  obtain ⟨⟨line, number⟩, -, found⟩ := List.mem_filterMap.mp member
  obtain ⟨cs, found⟩ := exists_read_of_readLine? found
  exact StopPlace.isKept_of_read found

end StopPlaceLines

end QuayTimeline
