import QuayTimeline.Proofs.Flattening.ByDay
import QuayTimeline.Proofs.Record.ReadBack

/-! # What is kept of a record

Whatever a text holds, a stop place that is read from it keeps attributes that can be written and
read again. Flattening keeps attributes as they are, so this stays so. -/

namespace QuayTimeline

open Json (Tree)

namespace Decoder

variable {α : Type} {known : List String} {read : α → String → Decoder α} {P : α → Prop}

theorem key_eq_ok_iff {name? : Option String} {name : String} :
    key name? = .ok name ↔ name? = some name := by
  cases name? with
  | none => exact ⟨fun same => (nomatch same), fun same => (nomatch same)⟩
  | some other =>
    exact ⟨fun same => congrArg some (Except.ok.inj same),
      fun same => congrArg _ (Option.some.inj same)⟩

/-- What reading one member says of it: its key is complete and, if known, new; then the others
follow. -/
theorem exists_of_members_cons {m : Tree.Member} {ms : List Tree.Member} {record result : α}
    {seen : List String} (returned : members known read record seen (m :: ms) = .ok result) :
    ∃ name next, m.1 = some name ∧ (name ∈ known → name ∉ seen) ∧ read record name m.2 = .ok next ∧
      members known read next (name :: seen) ms = .ok result := by
  obtain ⟨name, named, returned⟩ := bind_eq_ok_iff.mp returned
  split_ifs at returned with repeated
  obtain ⟨next, taken, returned⟩ := bind_eq_ok_iff.mp returned
  exact ⟨name, next, key_eq_ok_iff.mp named, not_and.mp repeated, taken, returned⟩

/-- What each member keeps, a whole object keeps. -/
theorem members_keeps
    (step : ∀ record name t next, P record → read record name t = .ok next → P next)
    {ms : List Tree.Member} {record result : α} {seen : List String} (start : P record)
    (returned : members known read record seen ms = .ok result) : P result := by
  induction ms generalizing record seen with
  | nil =>
    cases returned
    exact start
  | cons m rest ih =>
    obtain ⟨name, next, -, -, taken, returned⟩ := exists_of_members_cons returned
    exact ih (step record name m.2 next start taken) returned

theorem object_keeps
    (step : ∀ record name t next, P record → read record name t = .ok next → P next)
    {blank result : α} (start : P blank) {t : Tree}
    (returned : object known read blank t = .ok result) : P result := by
  cases t with
  | object ms => exact members_keeps step start returned
  | _ => cases returned

end Decoder

theorem Decoder.value_eq_ok_iff {room : Nat} {t : Tree} {v : Json} :
    value room t = .ok v ↔ t.value? room = some v := by
  rw [value]
  cases t.value? room with
  | none => simp
  | some w => simp

theorem AreKept.nil (fields : List String) (room : Nat) : AreKept fields room [] :=
  ⟨.nil, List.forall_mem_nil _, List.forall_mem_nil _⟩

theorem AreKept.put {fields : List String} {room : Nat} {others : Members Json}
    (kept : AreKept fields room others) {name : String} (free : name ∉ fields) {t : Tree}
    {v : Json} (read : Decoder.value room t = .ok v) :
    AreKept fields room (Members.put name v others) := by
  have fits : v.Fits room := Tree.fits_of_value? (Decoder.value_eq_ok_iff.mp read)
  refine ⟨Members.nodup_put name v kept.nodup, fun m member => ?_, fun m member => ?_⟩
  · cases Members.mem_put member with
    | inl same => exact same ▸ free
    | inr found => exact kept.free m found
  · cases Members.mem_put member with
    | inl same => exact same ▸ fits
    | inr found => exact kept.fits m found

/-- A field leaves the other attributes alone. -/
theorem Quay.others_of_readMember {room : Nat} {q next : Quay} {name : String} {t : Tree}
    (field : name ∈ fields) (read : readMember room q name t = .ok next) :
    next.others = q.others := by
  simp only [fields, List.mem_cons, List.not_mem_nil, or_false] at field
  rcases field with rfl | rfl | rfl | rfl | rfl | rfl | rfl <;>
    (obtain ⟨_, -, ⟨rfl⟩⟩ := bind_eq_ok_iff.mp read; rfl)

theorem Quay.areKept_readMember {room : Nat} {q next : Quay} {name : String} {t : Tree}
    (kept : AreKept fields room q.others) (read : readMember room q name t = .ok next) :
    AreKept fields room next.others := by
  by_cases field : name ∈ fields
  · exact others_of_readMember field read ▸ kept
  · rw [readMember_of_not_mem field] at read
    obtain ⟨v, found, ⟨rfl⟩⟩ := bind_eq_ok_iff.mp read
    exact kept.put field found

theorem Quay.areKept_decode {room : Nat} {t : Tree} {q : Quay} (read : decode room t = .ok q) :
    AreKept fields room q.others :=
  Decoder.object_keeps (P := fun q => AreKept fields room q.others)
    (fun _ _ _ _ kept read => areKept_readMember kept read) (.nil fields room) read

theorem StopPlace.others_of_readMember {place next : StopPlace} {name : String} {t : Tree}
    (field : name ∈ fields) (read : readMember place name t = .ok next) :
    next.others = place.others := by
  simp only [fields, List.mem_cons, List.not_mem_nil, or_false] at field
  rcases field with rfl | rfl | rfl | rfl | rfl <;>
    (obtain ⟨_, -, ⟨rfl⟩⟩ := bind_eq_ok_iff.mp read; rfl)

theorem StopPlace.quays_of_readMember_of_ne {place next : StopPlace} {name : String} {t : Tree}
    (distinct : name ≠ "quays") (read : readMember place name t = .ok next) :
    next.quays = place.quays := by
  by_cases field : name ∈ fields
  · simp only [fields, List.mem_cons, List.not_mem_nil, or_false, distinct] at field
    rcases field with rfl | rfl | rfl | rfl <;>
      (obtain ⟨_, -, ⟨rfl⟩⟩ := bind_eq_ok_iff.mp read; rfl)
  · rw [readMember_of_not_mem field] at read
    obtain ⟨v, -, ⟨rfl⟩⟩ := bind_eq_ok_iff.mp read
    rfl

theorem StopPlace.quays_of_readMember {place next : StopPlace} {t : Tree}
    (read : readMember place "quays" t = .ok next) : ∃ items, t = .array items ∧
      items.mapM (Quay.decode (greatestDepth - 3)) = .ok next.quays := by
  obtain ⟨quays, found, ⟨rfl⟩⟩ := bind_eq_ok_iff.mp read
  cases t with
  | array items => exact ⟨items, rfl, found⟩
  | _ => cases found

theorem StopPlace.isKept_readMember {place next : StopPlace} {name : String} {t : Tree}
    (kept : place.IsKept) (read : readMember place name t = .ok next) : next.IsKept := by
  constructor
  · by_cases field : name ∈ fields
    · exact others_of_readMember field read ▸ kept.others
    · rw [readMember_of_not_mem field] at read
      obtain ⟨v, found, ⟨rfl⟩⟩ := bind_eq_ok_iff.mp read
      exact kept.others.put field found
  · by_cases same : name = "quays"
    · intro q member
      obtain ⟨items, -, decoded⟩ := quays_of_readMember (same ▸ read)
      obtain ⟨item, -, decodedQuay⟩ := (mem_of_mapM_eq_ok decoded).mp member
      exact Quay.areKept_decode decodedQuay
    · exact quays_of_readMember_of_ne same read ▸ kept.quays

/-- A stop place that is read can be written and read again. -/
theorem StopPlace.isKept_of_read {cs : List Char} {place : StopPlace} (read : read cs = .ok place) :
    place.IsKept := by
  obtain ⟨decoded, -⟩ := Decoder.read_eq_ok_iff.mp read
  exact Decoder.object_keeps (P := IsKept) (fun _ _ _ _ kept read => isKept_readMember kept read)
    ⟨.nil _ _, List.forall_mem_nil _⟩ decoded

/-! ## Flattening -/

/-- Flattening carries the other attributes along. -/
theorem StopPlace.others_of_flatten {rules : FlatteningRules} {zone : Zone}
    {place result : StopPlace} (flattened : place.flatten rules zone = .ok result) :
    result.others = place.others ∧ ∀ q ∈ result.quays, ∃ p ∈ place.quays, q.others = p.others := by
  by_cases accepted : place.quays.any (rules.acceptsSource ·.sourceType?) = true
  · obtain ⟨fragments, quays, resolved, copied, rfl⟩ := (flatten_eq_ok_iff accepted).mp flattened
    refine ⟨rfl, fun q member => ?_⟩
    obtain ⟨e, memberE, copiedE⟩ := (mem_of_mapM_eq_ok copied).mp member
    obtain ⟨w, taken, -⟩ := exists_isTakenFrom resolved memberE copiedE
    exact ⟨w.owner.quay, List.mem_of_getElem? taken.original.placed, taken.copy.others⟩
  · rw [StopPlace.flatten, if_neg accepted] at flattened
    cases flattened
    exact ⟨rfl, fun q member => ⟨q, member, rfl⟩⟩

theorem StopPlace.IsKept.flatten {rules : FlatteningRules} {zone : Zone} {place result : StopPlace}
    (kept : place.IsKept) (flattened : place.flatten rules zone = .ok result) : result.IsKept := by
  obtain ⟨others, quays⟩ := others_of_flatten flattened
  refine ⟨others ▸ kept.others, fun q member => ?_⟩
  obtain ⟨p, memberP, same⟩ := quays q member
  exact same ▸ kept.quays p memberP

theorem StopPlace.HoldsIntegers.flatten {rules : FlatteningRules} {zone : Zone}
    {place result : StopPlace} (integers : place.HoldsIntegers)
    (flattened : place.flatten rules zone = .ok result) : result.HoldsIntegers := by
  obtain ⟨others, quays⟩ := others_of_flatten flattened
  refine ⟨others ▸ integers.others, fun q member => ?_⟩
  obtain ⟨p, memberP, same⟩ := quays q member
  exact same ▸ integers.quays p memberP

end QuayTimeline
