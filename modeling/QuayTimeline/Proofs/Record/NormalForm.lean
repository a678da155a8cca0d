import QuayTimeline.Proofs.Record.Kept
import QuayTimeline.Proofs.Record.Text

/-! # Texts in normal form

A record has many texts: with other spaces, escapes and orders of members, with a private code as an
array, with instants of any offset. The text that is written of it is read as the same record, and
so is written again as it is. -/

namespace QuayTimeline

theorem Quay.areKept_of_read {cs : List Char} {q : Quay} (read : read cs = .ok q) :
    AreKept fields (greatestDepth - 1) q.others :=
  areKept_decode (Decoder.read_eq_ok_iff.mp read).1

/-- Reading undoes writing on all that texts hold, and writing again gives the same text. -/
theorem read_text_of_read :
    (∀ cs (q : Quay), Quay.read cs = .ok q → HoldIntegers q.others →
      Quay.read q.text = .ok q ∧ Quay.text <$> Quay.read q.text = .ok q.text) ∧
    ∀ cs (place : StopPlace), StopPlace.read cs = .ok place → place.HoldsIntegers →
      StopPlace.read place.text = .ok place ∧
        StopPlace.text <$> StopPlace.read place.text = .ok place.text := by
  constructor
  · intro cs q read integers
    have again := Quay.read_text (Quay.areKept_of_read read) integers
    exact ⟨again, by rw [again]; rfl⟩
  · intro cs place read integers
    have again := StopPlace.read_text (StopPlace.isKept_of_read read) integers
    exact ⟨again, by rw [again]; rfl⟩

def inBraces (cs : List Char) : List Char :=
  '{' :: cs ++ ['}']

/-- A text of a quay with attributes among the fields and one of them twice, with escapes, a leap
second in the year before 0 and a year of five digits. -/
def unusualText : List Char :=
  inBraces <| List.flatten ["\"note\":1, \"name\":\"A\\u0042\\ud83d\\ude8f\",".toList,
    "\"Name\" : ".toList, inBraces ("\"b\":[-0,".toList ++ inBraces "\"c\":null".toList ++ [']']),
    ",\"privateCode\":[\"JORE\",\"x\"]".toList,
    ",\"keyValues\":".toList, inBraces "\"z\":[\"1\",\"2\"],\"a\":[]".toList,
    ",\"validBetween\":".toList, inBraces ("\"toDate\":\"+12345-01-01t00:00:00+02:00\"".toList ++
      ",\"fromDate\":\"-0001-12-31 23:59:60.5Z\"".toList),
    ",\"note\":18446744073709551615".toList]

/-- The text that is written of that quay. -/
def unusualTextWritten : List Char :=
  inBraces <| List.flatten ["\"version\":0,\"privateCode\":".toList,
    inBraces "\"type\":\"JORE\",\"value\":\"x\"".toList, ",\"name\":\"AB🚏\",\"keyValues\":".toList,
    inBraces "\"a\":[],\"z\":[\"1\",\"2\"]".toList,
    ",\"validBetween\":".toList, inBraces ("\"fromDate\":\"-0001-12-31T23:59:60.500Z\"".toList ++
      ",\"toDate\":\"+12344-12-31T22:00:00Z\"".toList),
    ",\"note\":18446744073709551615,\"Name\":".toList,
    inBraces ("\"b\":[-0.0,".toList ++ inBraces "\"c\":null".toList ++ [']'])]

/-- A text of a stop place with that quay, behind which its fields follow. -/
def unusualPlaceText : List Char :=
  inBraces <| List.flatten ["\"hubs\":[null,3],\"quays\" : [".toList, unusualText,
    "], \"name\":\"A\\/B\",\"version\":-7".toList]

def unusualPlaceTextWritten : List Char :=
  inBraces <| List.flatten ["\"version\":-7,\"name\":\"A/B\",\"quays\":[".toList,
    unusualTextWritten, "],\"hubs\":[null,3]".toList]

theorem read_text_of_read_unusualText :
    (∃ q, Quay.read unusualText = .ok q ∧ HoldIntegers q.others ∧ q.text = unusualTextWritten ∧
      Quay.read unusualTextWritten = .ok q) ∧
    ∃ place, StopPlace.read unusualPlaceText = .ok place ∧ place.HoldsIntegers ∧
      place.text = unusualPlaceTextWritten ∧
      StopPlace.read unusualPlaceTextWritten = .ok place := by
  constructor
  · have checked : (Quay.read unusualText).toOption.any (fun q =>
        decide (HoldIntegers q.others ∧ q.text = unusualTextWritten)) = true := by decide +kernel
    cases read : Quay.read unusualText with
    | error error =>
      rw [read] at checked
      cases checked
    | ok q =>
      rw [read] at checked
      obtain ⟨integers, written⟩ := of_decide_eq_true checked
      exact ⟨q, rfl, integers, written, written ▸ (read_text_of_read.1 _ q read integers).1⟩
  · have checked : (StopPlace.read unusualPlaceText).toOption.any (fun place =>
        decide ((HoldIntegers place.others ∧ ∀ q ∈ place.quays, HoldIntegers q.others) ∧
          place.text = unusualPlaceTextWritten)) = true := by decide +kernel
    cases read : StopPlace.read unusualPlaceText with
    | error error =>
      rw [read] at checked
      cases checked
    | ok place =>
      rw [read] at checked
      obtain ⟨⟨others, quays⟩, written⟩ := of_decide_eq_true checked
      have integers : place.HoldsIntegers := ⟨others, quays⟩
      exact ⟨place, rfl, integers, written,
        written ▸ (read_text_of_read.2 _ place read integers).1⟩

end QuayTimeline
