import QuayTimeline.Flattening
import QuayTimeline.Proofs.Record.KeyValues
import QuayTimeline.Proofs.Record.VersionKeys

/-! # Copies of quays

The copy of a quay for some days says of itself that it holds on these days. A copy of a copy is a
copy of the quay, whatever the validities in between. -/

namespace QuayTimeline

/-- The instants of a validity in a zone, if clocks there show its first and its last day. -/
def Zone.rangeOf? (zone : Zone) (v : Validity) : Option ValidBetween := do
  let fromDate ← zone.startOfDay? v.start
  match v.end? with
  | some last => return ⟨fromDate, some (← zone.endOfDay? last)⟩
  | none => return ⟨fromDate, none⟩

/-- Of a validity that clocks do not show in full, the day to blame: its first one, or else its
last. -/
def Zone.hiddenDay (zone : Zone) (v : Validity) : Day :=
  if (zone.startOfDay? v.start).isSome then v.last else v.start

/-- The day that clocks do not show, if that is the fault. -/
def FlatteningError.hiddenDay? : FlatteningError → Option Day
  | nonexistentLocalTime _ d => some d
  | _ => none

namespace Quay

/-- The copy of a quay that holds on the days of a validity. -/
def copyFor (q : Quay) (v : Validity) (range : ValidBetween) : Quay :=
  { q.detached with validBetween := some range, keyValues := keyValuesWith q.keyValues v }

/-- A quay is copied if clocks show the first and the last day, and there is no other fault. -/
theorem withValidity_eq (zone : Zone) (q : Quay) (v : Validity) :
    q.withValidity zone v = match zone.rangeOf? v with
      | some range => .ok (q.copyFor v range)
      | none => .error (.nonexistentLocalTime q.label (zone.hiddenDay v)) := by
  -- Both sides look for the same instants, the first one first.
  rw [withValidity, Zone.rangeOf?, Zone.hiddenDay, Validity.end?]
  cases zone.startOfDay? v.start with
  | none => rfl
  | some fromDate =>
    by_cases indefinite : v.IsIndefinite
    · simp only [if_pos indefinite]
      rfl
    · simp only [if_neg indefinite]
      cases zone.endOfDay? v.last <;> rfl

theorem withValidity_eq_ok_iff {zone : Zone} {q r : Quay} {v : Validity} :
    q.withValidity zone v = .ok r ↔
      ∃ range, zone.rangeOf? v = some range ∧ r = q.copyFor v range := by
  rw [withValidity_eq]
  cases zone.rangeOf? v with
  | none => exact ⟨fun same => (nomatch same), fun ⟨_, same, _⟩ => (nomatch same)⟩
  | some range =>
    exact ⟨fun same => ⟨range, rfl, (Except.ok.inj same).symm⟩,
      fun ⟨_, shown, same⟩ => congrArg Except.ok (Option.some.inj shown ▸ same.symm)⟩

theorem withValidity_eq_error_iff {zone : Zone} {q : Quay} {v : Validity}
    {error : FlatteningError} : q.withValidity zone v = .error error ↔
      zone.rangeOf? v = none ∧ error = .nonexistentLocalTime q.label (zone.hiddenDay v) := by
  rw [withValidity_eq]
  cases zone.rangeOf? v with
  | none =>
    exact ⟨fun same => ⟨rfl, (Except.error.inj same).symm⟩, fun ⟨_, same⟩ => congrArg _ same.symm⟩
  | some range => exact ⟨fun same => (nomatch same), fun ⟨same, _⟩ => (nomatch same)⟩

theorem hiddenDay?_of_withValidity {zone : Zone} {q : Quay} {v : Validity}
    {error : FlatteningError} (failed : q.withValidity zone v = .error error) :
    error.hiddenDay? = some (zone.hiddenDay v) := by
  obtain ⟨-, rfl⟩ := withValidity_eq_error_iff.mp failed
  rfl

/-- The three keys hold the validity; all others stay. -/
theorem get?_keyValuesWith (kvs : KeyValues) (v : Validity) (key : String) :
    (keyValuesWith kvs v).get? key =
      if key = VersionKeys.last then v.end?.map fun last => [toString last]
      else if key = VersionKeys.start then some [toString v.start]
      else if key = VersionKeys.priority then some [toString v.priority]
      else kvs.get? key := by
  rw [keyValuesWith.eq_def]
  cases v.end? with
  | none => simp only [KeyValues.get?_erase, KeyValues.get?_insert, Option.map_none]
  | some last => simp only [KeyValues.get?_insert, Option.map_some]

theorem keyValuesWith_keyValuesWith (kvs : KeyValues) (v w : Validity) :
    keyValuesWith (keyValuesWith kvs v) w = keyValuesWith kvs w := by
  refine KeyValues.eq_of_get?_eq fun key => ?_
  simp only [get?_keyValuesWith]
  repeat' split
  all_goals rfl

variable (q : Quay) (v : Validity) (range : ValidBetween)

theorem copyFor_copyFor (w : Validity) (other : ValidBetween) :
    (q.copyFor v range).copyFor w other = q.copyFor w other := by
  simp only [copyFor, detached, keyValuesWith_keyValuesWith]

theorem value?_start_copyFor :
    KeyedRecord.value? (q.copyFor v range) VersionKeys.start = some [toString v.start] := by
  change (keyValuesWith q.keyValues v).get? _ = _
  rw [get?_keyValuesWith, if_neg (by decide), if_pos rfl]

theorem value?_last_copyFor :
    KeyedRecord.value? (q.copyFor v range) VersionKeys.last =
      v.end?.map fun last => [toString last] := by
  change (keyValuesWith q.keyValues v).get? _ = _
  rw [get?_keyValuesWith, if_pos rfl]

theorem value?_priority_copyFor :
    KeyedRecord.value? (q.copyFor v range) VersionKeys.priority = some [toString v.priority] := by
  change (keyValuesWith q.keyValues v).get? _ = _
  rw [get?_keyValuesWith, if_neg (by decide), if_neg (by decide), if_pos rfl]

/-- A copy holds on the days for which it was made. -/
theorem validity_copyFor (covers : v.CoversSomeDay) :
    VersionKeys.validity (q.copyFor v range) = .ok v :=
  VersionKeys.validity_eq_ok covers (q.value?_start_copyFor v range)
    (q.value?_last_copyFor v range) (q.value?_priority_copyFor v range)

/-- A validity that is written into a copy of a quay is read back from it, whatever the quay held
under the three keys, and wherever its days lie. -/
theorem validity_of_withValidity {zone : Zone} {q copy : Quay} {v : Validity}
    (covers : v.CoversSomeDay) (copied : q.withValidity zone v = .ok copy) :
    VersionKeys.validity copy = .ok v := by
  obtain ⟨range, -, made⟩ := withValidity_eq_ok_iff.mp copied
  rw [made]
  exact q.validity_copyFor v range covers

/-- A quay that holds too many items, none, and one that is no date. -/
def unreadableQuay : Quay :=
  { Quay.blank with keyValues := .ofList [(VersionKeys.priority, ["high", "low"]),
      (VersionKeys.start, []), (VersionKeys.last, ["tomorrow"])] }

/-- From the first representable day to the end of the year 12024, at the lowest priority. -/
def untilYear12024 : Validity :=
  ⟨Day.first, (Day.ofCivil? ⟨12024, 12, 31⟩).get rfl, (Priority.ofInt? (-2147483648)).get rfl⟩

theorem validity_of_withValidity_unreadableQuay :
    untilYear12024.CoversSomeDay ∧
      VersionKeys.validity unreadableQuay =
        .error (.unreadableDate "unidentified quay" "validityEnd" "tomorrow") ∧
      ∃ copy, unreadableQuay.withValidity (.fixed (.east (-3600))) untilYear12024 = .ok copy ∧
        KeyedRecord.items copy VersionKeys.start = ["-262143-01-01"] ∧
        KeyedRecord.items copy VersionKeys.last = ["+12024-12-31"] ∧
        VersionKeys.validity copy = .ok untilYear12024 := by
  have covers : untilYear12024.CoversSomeDay := by decide
  have shown : ((Zone.fixed (.east (-3600))).rangeOf? untilYear12024).isSome := by decide +kernel
  obtain ⟨range, found⟩ := Option.isSome_iff_exists.mp shown
  have copied := withValidity_eq_ok_iff.mpr ⟨range, found, Eq.refl (unreadableQuay.copyFor _ range)⟩
  refine ⟨covers, rfl, _, copied, ?_, ?_, validity_of_withValidity covers copied⟩
  · rw [KeyedRecord.items, value?_start_copyFor]
    decide +kernel
  · rw [KeyedRecord.items, value?_last_copyFor]
    decide +kernel

end Quay

end QuayTimeline
