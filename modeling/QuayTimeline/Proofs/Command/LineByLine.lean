import QuayTimeline.Proofs.Command.Flatten
import QuayTimeline.Proofs.Record.NormalForm

/-! # The command that flattens, line by line

A run writes one line for each stop place before the first item at fault. There it stops: the lines
of the input after that item leave no trace. As no text of a stop place has a line feed, what is
written falls into the same lines again. These are read back when the numbers among the attributes
are integers of 64 bits; a longer integer is kept as a binary number, whose text may be read as a
neighbour of it. -/

namespace QuayTimeline

open StopPlaceLines (linesText physicalLines isBlankLine decode? readLine? readLines)
open CommandLine (encode)

namespace Flatten

variable {rules : FlatteningRules} {zone : Zone}

/-- The flattened stop places before the first item at fault. -/
def flattenedItems (rules : FlatteningRules) (zone : Zone)
    (items : List (Except LineError StopPlace)) : List StopPlace :=
  ((items.map (flattenItem rules zone)).takeWhile (·.isOk)).filterMap (·.toOption)

/-- Where a run stops, with the line at fault and its cause. -/
structure StopsAt (rules : FlatteningRules) (zone : Zone)
    (run : List (Except LineError StopPlace) → Written Nat) (input : Bytes) (i : Nat)
    (cause : SourceError LineError) : Prop where
  /-- The line is read as an item that cannot be flattened. -/
  failed : ∃ line item, (physicalLines input)[i]? = some line ∧
    readLine? line (i + 1) = some item ∧ flattenItem rules zone item = .error cause
  /-- A stop place is written for each line before that is not blank. -/
  written : (flattenedItems rules zone (StopPlaceLines.read input)).length =
    ((physicalLines input).take i).countP (!isBlankLine ·)
  result : (run (StopPlaceLines.read input)).result = .error (.unflattened
    ((flattenedItems rules zone (StopPlaceLines.read input)).length + 1) cause)
  /-- Any input with the same lines up to this one gives the same run. -/
  later : ∀ other : Bytes, (physicalLines other).take (i + 1) = (physicalLines input).take (i + 1) →
    run (StopPlaceLines.read other) = run (StopPlaceLines.read input)

/-- The stop place that a piece of text holds. -/
def readPiece? (piece : Bytes) : Option StopPlace := do
  (StopPlace.read (← decode? piece)).toOption

/-- What a run does with an input, told by the lines of the input and the lines of the output. -/
structure IsLineByLine (rules : FlatteningRules) (zone : Zone)
    (run : List (Except LineError StopPlace) → Written Nat) (input : Bytes) : Prop where
  text : (run (StopPlaceLines.read input)).text =
    linesText (flattenedItems rules zone (StopPlaceLines.read input))
  isOk_iff : (∃ n, (run (StopPlaceLines.read input)).result = .ok n) ↔
    ∀ item ∈ StopPlaceLines.read input, ∃ place, flattenItem rules zone item = .ok place
  count : ∀ n, (run (StopPlaceLines.read input)).result = .ok n →
    n = (physicalLines input).countP (!isBlankLine ·)
  stops : ∀ error, (run (StopPlaceLines.read input)).result = .error error →
    ∃ i cause, StopsAt rules zone run input i cause
  /-- The bytes fall at line feeds into the texts of the stop places. -/
  lines : physicalLines (encode (run (StopPlaceLines.read input)).text) =
    (flattenedItems rules zone (StopPlaceLines.read input)).map (encode ·.text) ++ [[]]
  readBack : (∀ place, .ok place ∈ StopPlaceLines.read input → place.HoldsIntegers) →
    ((physicalLines (encode (run (StopPlaceLines.read input)).text)).dropLast).map readPiece? =
      (flattenedItems rules zone (StopPlaceLines.read input)).map some

/-! ## Items before a fault -/

theorem flattenedItems_cons_of_ok {item : Except LineError StopPlace} {place : StopPlace}
    (flattened : flattenItem rules zone item = .ok place)
    (items : List (Except LineError StopPlace)) :
    flattenedItems rules zone (item :: items) = place :: flattenedItems rules zone items := by
  simp [flattenedItems, flattened, Except.isOk, Except.toBool, Except.toOption]

theorem flattenedItems_cons_of_error {item : Except LineError StopPlace}
    {cause : SourceError LineError} (failed : flattenItem rules zone item = .error cause)
    (items : List (Except LineError StopPlace)) :
    flattenedItems rules zone (item :: items) = [] := by
  simp [flattenedItems, failed, Except.isOk, Except.toBool]

theorem flattenedItems_append {before : List (Except LineError StopPlace)} {places : List StopPlace}
    (flattened : before.mapM (flattenItem rules zone) = .ok places)
    (rest : List (Except LineError StopPlace)) :
    flattenedItems rules zone (before ++ rest) = places ++ flattenedItems rules zone rest := by
  have related := mapM_eq_ok_iff.mp flattened
  clear flattened
  induction related with
  | nil => rfl
  | cons first _ ih => rw [List.cons_append, flattenedItems_cons_of_ok first, ih, List.cons_append]

/-- Items that can be flattened are written, and the run goes on behind them. -/
theorem writeItems_append {before : List (Except LineError StopPlace)} {places : List StopPlace}
    (flattened : before.mapM (flattenItem rules zone) = .ok places)
    (rest : List (Except LineError StopPlace)) (count : Nat) :
    writeItems rules zone count (before ++ rest) =
      ⟨linesText places ++ (writeItems rules zone (count + places.length) rest).text,
        (writeItems rules zone (count + places.length) rest).result⟩ := by
  have related := mapM_eq_ok_iff.mp flattened
  clear flattened
  induction related generalizing count with
  | nil => rfl
  | @cons _ place _ places first _ ih =>
    have total : count + (place :: places).length = count + 1 + places.length := by
      rw [List.length_cons]
      omega
    rw [List.cons_append, writeItems, first, ih, total, StopPlaceLines.linesText_cons]
    simp

variable {before items later : List (Except LineError StopPlace)}
variable {item : Except LineError StopPlace}
variable {places : List StopPlace} {cause : SourceError LineError}

theorem flattenedItems_of_ok (flattened : items.mapM (flattenItem rules zone) = .ok places) :
    flattenedItems rules zone items = places := by
  have appended := flattenedItems_append flattened []
  have none : flattenedItems rules zone [] = [] := rfl
  rwa [List.append_nil, none, List.append_nil] at appended

theorem flattenedItems_of_fault (flattened : before.mapM (flattenItem rules zone) = .ok places)
    (failed : flattenItem rules zone item = .error cause) :
    flattenedItems rules zone (before ++ item :: later) = places := by
  rw [flattenedItems_append flattened, flattenedItems_cons_of_error failed, List.append_nil]

theorem writeItems_of_fault (flattened : before.mapM (flattenItem rules zone) = .ok places)
    (failed : flattenItem rules zone item = .error cause) (count : Nat) :
    writeItems rules zone count (before ++ item :: later) =
      ⟨linesText places, .error (.unflattened (count + places.length + 1) cause)⟩ := by
  rw [writeItems_append flattened, writeItems, failed]
  simp

/-- Either all items can be flattened, or there is a first one that cannot. -/
theorem exists_fault_or (rules : FlatteningRules) (zone : Zone)
    (items : List (Except LineError StopPlace)) :
    (∃ places, items.mapM (flattenItem rules zone) = .ok places) ∨
      ∃ before item later places cause, items = before ++ item :: later ∧
        before.mapM (flattenItem rules zone) = .ok places ∧
        flattenItem rules zone item = .error cause := by
  cases flattened : items.mapM (flattenItem rules zone) with
  | ok places => exact .inl ⟨places, rfl⟩
  | error cause =>
    obtain ⟨before, item, later, rfl, each, failed⟩ := mapM_eq_error_iff.mp flattened
    obtain ⟨places, flattened⟩ := exists_mapM_eq_ok_iff.mpr each
    exact .inr ⟨before, item, later, places, cause, rfl, flattened, failed⟩

theorem text_writeItems (rules : FlatteningRules) (zone : Zone) (count : Nat)
    (items : List (Except LineError StopPlace)) :
    (writeItems rules zone count items).text = linesText (flattenedItems rules zone items) := by
  obtain ⟨places, flattened⟩ | ⟨before, item, later, places, cause, rfl, flattened, failed⟩ :=
    exists_fault_or rules zone items
  · rw [writeItems_eq_ok_iff.mpr ⟨places, flattened, rfl, rfl⟩, flattenedItems_of_ok flattened]
  · rw [writeItems_of_fault flattened failed, flattenedItems_of_fault flattened failed]

theorem result_writeItems_eq_ok_iff {count n : Nat} :
    (writeItems rules zone count items).result = .ok n ↔
      ∃ places, items.mapM (flattenItem rules zone) = .ok places ∧ n = count + places.length := by
  constructor
  · intro succeeded
    obtain ⟨places, flattened, -, counted⟩ := writeItems_eq_ok_iff.mp
      (show writeItems rules zone count items = ⟨_, .ok n⟩ from congrArg (Written.mk _) succeeded)
    exact ⟨places, flattened, counted⟩
  · rintro ⟨places, flattened, rfl⟩
    rw [writeItems_eq_ok_iff.mpr ⟨places, flattened, rfl, rfl⟩]

theorem result_writeItems_eq_error_iff {count : Nat} {error : CommandError} :
    (writeItems rules zone count items).result = .error error ↔
      ∃ before item later places cause, items = before ++ item :: later ∧
        before.mapM (flattenItem rules zone) = .ok places ∧
        flattenItem rules zone item = .error cause ∧
        error = .unflattened (count + places.length + 1) cause := by
  constructor
  · intro stopped
    obtain ⟨places, flattened⟩ | ⟨before, item, later, places, cause, rfl, flattened, failed⟩ :=
      exists_fault_or rules zone items
    · rw [result_writeItems_eq_ok_iff.mpr ⟨places, flattened, rfl⟩] at stopped
      cases stopped
    · rw [writeItems_of_fault flattened failed] at stopped
      exact ⟨before, item, later, places, cause, rfl, flattened, failed,
        (Except.error.inj stopped).symm⟩
  · rintro ⟨before, item, later, places, cause, rfl, flattened, failed, rfl⟩
    rw [writeItems_of_fault flattened failed]

/-! ## Lines -/

/-- A run that stops at an item stops at the line of that item. -/
theorem stopsAt_of_fault {input : Bytes}
    (split : StopPlaceLines.read input = before ++ item :: later)
    (flattened : before.mapM (flattenItem rules zone) = .ok places)
    (failed : flattenItem rules zone item = .error cause) :
    ∃ i, StopsAt rules zone (writeItems rules zone 0) input i cause := by
  obtain ⟨i, line, there, itemThere, beforeThere⟩ := StopPlaceLines.exists_line_of_readLines split
  have length : places.length = before.length := (mapM_eq_ok_iff.mp flattened).length_eq.symm
  have written : flattenedItems rules zone (StopPlaceLines.read input) = places := by
    rw [split, flattenedItems_of_fault flattened failed]
  have upToHere : readLines 1 ((physicalLines input).take (i + 1)) = before ++ [item] := by
    rw [StopPlaceLines.readLines_take_succ there, beforeThere, itemThere]
    rfl
  refine ⟨i, ⟨line, item, there, ?_, failed⟩, ?_, ?_, ?_⟩
  · rwa [Nat.add_comm]
  · rw [written, length, ← beforeThere, StopPlaceLines.length_readLines]
  · rw [written, split, writeItems_of_fault flattened failed, Nat.zero_add]
  · intro other same
    have begins := List.take_append_drop (i + 1) (physicalLines other)
    have otherSplit : ∃ others, StopPlaceLines.read other = before ++ item :: others := by
      rw [StopPlaceLines.read_eq_readLines, ← begins, StopPlaceLines.readLines_append, same,
        upToHere, List.append_assoc]
      exact ⟨_, rfl⟩
    obtain ⟨others, otherSplit⟩ := otherSplit
    rw [otherSplit, split, writeItems_of_fault flattened failed,
      writeItems_of_fault flattened failed]

/-- Whatever is flattened was read. -/
theorem exists_source_of_mem {place : StopPlace}
    (member : place ∈ flattenedItems rules zone items) :
    ∃ source, .ok source ∈ items ∧ source.flatten rules zone = .ok place := by
  obtain ⟨step, among, found⟩ := List.mem_filterMap.mp member
  have amongAll := (List.takeWhile_sublist _).mem among
  obtain ⟨item, memberItem, rfl⟩ := List.mem_map.mp amongAll
  obtain ⟨source, rfl, same⟩ := flattenItem_eq_ok_iff.mp (eq_ok_of_toOption found)
  exact ⟨source, memberItem, same⟩

theorem readPiece?_text {input : Bytes}
    (integers : ∀ place, .ok place ∈ StopPlaceLines.read input → place.HoldsIntegers)
    {place : StopPlace}
    (member : place ∈ flattenedItems rules zone (StopPlaceLines.read input)) :
    readPiece? (encode place.text) = some place := by
  obtain ⟨source, memberSource, same⟩ := exists_source_of_mem member
  have kept : place.IsKept := (StopPlaceLines.isKept_of_mem_read memberSource).flatten same
  have holdsIntegers : place.HoldsIntegers := (integers source memberSource).flatten same
  rw [readPiece?, decode?_encode]
  show (StopPlace.read place.text).toOption = some place
  rw [StopPlace.read_text kept holdsIntegers]
  rfl

theorem isLineByLine_writeItems (input : Bytes) :
    IsLineByLine rules zone (writeItems rules zone 0) input := by
  have text := text_writeItems rules zone 0 (StopPlaceLines.read input)
  have lines := StopPlaceLines.physicalLines_linesText
    (flattenedItems rules zone (StopPlaceLines.read input))
  constructor
  case text => exact text
  case isOk_iff =>
    rw [← exists_mapM_eq_ok_iff]
    constructor
    · rintro ⟨n, succeeded⟩
      obtain ⟨places, flattened, -⟩ := result_writeItems_eq_ok_iff.mp succeeded
      exact ⟨places, flattened⟩
    · rintro ⟨places, flattened⟩
      exact ⟨_, result_writeItems_eq_ok_iff.mpr ⟨places, flattened, rfl⟩⟩
  case count =>
    intro n succeeded
    obtain ⟨places, flattened, rfl⟩ := result_writeItems_eq_ok_iff.mp succeeded
    rw [Nat.zero_add, ← (mapM_eq_ok_iff.mp flattened).length_eq]
    exact StopPlaceLines.length_readLines 1 _
  case stops =>
    intro error stopped
    obtain ⟨before, item, later, places, cause, split, flattened, failed, -⟩ :=
      result_writeItems_eq_error_iff.mp stopped
    obtain ⟨i, stops⟩ := stopsAt_of_fault split flattened failed
    exact ⟨i, cause, stops⟩
  case lines => rw [text, lines]
  case readBack =>
    intro integers
    rw [text, lines, List.dropLast_concat, List.map_map, List.map_inj_left]
    intro place member
    exact readPiece?_text integers member

variable {zoneNamed? : String → Option Zone} {zoneName : String}

theorem write_eq_writeItems (named : zoneNamed? zoneName = some zone) :
    write zoneNamed? rules zoneName = writeItems rules zone 0 := by
  funext items
  rw [write, named]

/-- A run that succeeds writes as many lines as it counts. -/
theorem exists_lines_of_write {n : Nat}
    (succeeded : (write zoneNamed? rules zoneName items).result = .ok n) :
    ∃ lines, physicalLines (encode (write zoneNamed? rules zoneName items).text) = lines ++ [[]] ∧
      lines.length = n := by
  cases named : zoneNamed? zoneName with
  | none =>
    rw [write, named] at succeeded
    cases succeeded
  | some zone =>
    rw [write_eq_writeItems named] at succeeded ⊢
    obtain ⟨places, flattened, rfl⟩ := result_writeItems_eq_ok_iff.mp succeeded
    rw [text_writeItems, flattenedItems_of_ok flattened, StopPlaceLines.physicalLines_linesText]
    exact ⟨_, rfl, by simp⟩

/-- A run on any input goes line by line, in any zone and so in any zone that is found for a
name. -/
theorem write_line_by_line (rules : FlatteningRules) (zone : Zone) :
    (∀ input, IsLineByLine rules zone (writeItems rules zone 0) input) ∧
      ∀ (zoneNamed? : String → Option Zone) (zoneName : String),
        zoneNamed? zoneName = some zone →
          ∀ input, IsLineByLine rules zone (write zoneNamed? rules zoneName) input := by
  refine ⟨isLineByLine_writeItems, ?_⟩
  intro zoneNamed? zoneName named input
  rw [write_eq_writeItems named]
  exact isLineByLine_writeItems input

/-- A stop place, a line of space, a line that is no stop place, and another stop place. -/
def brokenLines : Bytes :=
  encode (List.flatten [inBraces "\"levels\":[-1,2]".toList, "\n \nx\n".toList, inBraces []])

theorem holdsIntegers_of_mem_brokenLines {place : StopPlace}
    (member : .ok place ∈ StopPlaceLines.read brokenLines) : place.HoldsIntegers := by
  have checked : (StopPlaceLines.read brokenLines).all (fun item => item.toOption.all fun place =>
      decide (HoldIntegers place.others ∧ ∀ q ∈ place.quays, HoldIntegers q.others)) = true := by
    decide +kernel
  obtain ⟨others, quays⟩ := of_decide_eq_true (List.all_eq_true.mp checked _ member)
  exact ⟨others, quays⟩

theorem write_line_by_line_brokenLines :
    let written := write Zone.named? .default "UTC" (StopPlaceLines.read brokenLines)
    let places := flattenedItems .default (.fixed (.east 0)) (StopPlaceLines.read brokenLines)
    Zone.named? "UTC" = some (.fixed (.east 0)) ∧
    (∀ place, .ok place ∈ StopPlaceLines.read brokenLines → place.HoldsIntegers) ∧
    places.map (·.text) = [inBraces "\"version\":0,\"quays\":[],\"levels\":[-1,2]".toList] ∧
    ((physicalLines (encode written.text)).dropLast).map readPiece? = places.map some ∧
    ∃ i cause,
      StopsAt .default (.fixed (.east 0)) (write Zone.named? .default "UTC") brokenLines i cause ∧
      written.result = .error (.unflattened 2 cause) := by
  intro written places
  have named : Zone.named? "UTC" = some (.fixed (.east 0)) := rfl
  have integers (place : StopPlace) (member : .ok place ∈ StopPlaceLines.read brokenLines) :
      place.HoldsIntegers := holdsIntegers_of_mem_brokenLines member
  have run := (write_line_by_line .default (.fixed (.east 0))).2 _ "UTC" named brokenLines
  have texts : places.map (·.text) =
      [inBraces "\"version\":0,\"quays\":[],\"levels\":[-1,2]".toList] := by decide +kernel
  refine ⟨named, integers, texts, run.readBack integers, ?_⟩
  cases result : written.result with
  | ok n =>
    have fails : written.result.toOption = none := by decide +kernel
    rw [result] at fails
    cases fails
  | error error =>
    obtain ⟨i, cause, stops⟩ := run.stops error result
    have one : places.length = 1 := by simpa using congrArg List.length texts
    have stopped : written.result = .error (.unflattened (places.length + 1) cause) := stops.result
    rw [result, one] at stopped
    exact ⟨i, cause, stops, stopped⟩

/-- A stop place with an integer that is longer than 64 bits. -/
def longIntegerText : List Char :=
  inBraces "\"length\":300000000000000000000000".toList

/-- A long integer is written as the shortest decimal of a binary number, which is read as the
number below that one. -/
theorem not_readBack_longIntegerText :
    let written := write Zone.named? .default "UTC" (StopPlaceLines.read (encode longIntegerText))
    let places := flattenedItems .default (.fixed (.east 0))
      (StopPlaceLines.read (encode longIntegerText))
    Json.Tree.ofText longIntegerText = (.object [(some "length",
      .number ⟨false, "300000000000000000000000".toList, none, none⟩)], []) ∧
    written.result = .ok 1 ∧
    ((physicalLines (encode written.text)).dropLast).map readPiece? ≠ places.map some := by
  intro written places
  have named : Zone.named? "UTC" = some (.fixed (.east 0)) := rfl
  have run : IsLineByLine .default (.fixed (.east 0)) (write Zone.named? .default "UTC")
      (encode longIntegerText) := by
    rw [write_eq_writeItems named]
    exact isLineByLine_writeItems _
  have texts : places.map (·.text) =
      [inBraces "\"version\":0,\"quays\":[],\"length\":3e+23".toList] := by decide +kernel
  have again : (readPiece? (encode (inBraces
      "\"version\":0,\"quays\":[],\"length\":3e+23".toList))).map (·.text) = some (inBraces
        "\"version\":0,\"quays\":[],\"length\":2.9999999999999997e+23".toList) := by decide +kernel
  have succeeds : written.result.toOption = some 1 := by decide +kernel
  refine ⟨rfl, eq_ok_of_toOption succeeds, ?_⟩
  intro readBack
  have lines : physicalLines (encode written.text) = places.map (encode ·.text) ++ [[]] := run.lines
  rw [lines, List.dropLast_concat] at readBack
  obtain ⟨place, single, here⟩ := List.map_eq_singleton_iff.mp texts
  rw [single] at readBack
  have readBack : readPiece? (encode place.text) = some place := by simpa using readBack
  rw [← here, readBack, Option.map_some, Option.some.injEq, here] at again
  exact absurd again (by decide)

end Flatten

end QuayTimeline
