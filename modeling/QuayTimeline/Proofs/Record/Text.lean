import QuayTimeline.Proofs.Json.OneLine
import QuayTimeline.Proofs.Record.ReadBack

/-! # Texts of records

The text of a record stands in one line. A record whose attributes hold integers only is such a
value as a whole, so its text is read as the record. -/

namespace QuayTimeline

open Json (NumbersAreIntegers)

theorem HoldIntegers.append {ms ns : Members Json} (first : HoldIntegers ms)
    (second : HoldIntegers ns) : HoldIntegers (ms ++ ns) :=
  List.forall_mem_append.mpr ⟨first, second⟩

theorem HoldIntegers.cons {m : String × Json} {ms : Members Json} (first : m.2.NumbersAreIntegers)
    (others : HoldIntegers ms) : HoldIntegers (m :: ms) :=
  List.forall_mem_cons.mpr ⟨first, others⟩

theorem HoldIntegers.nil : HoldIntegers [] :=
  List.forall_mem_nil _

theorem holdIntegers_optionalMember {α : Type} {encode : α → Json}
    (each : ∀ x, (encode x).NumbersAreIntegers) (key : String) (field : Option α) :
    HoldIntegers (optionalMember key encode field) := by
  cases field with
  | none => exact .nil
  | some x => exact .cons (each x) .nil

theorem PrivateCode.numbersAreIntegers_encode (code : PrivateCode) :
    code.encode.NumbersAreIntegers :=
  .object (HoldIntegers.cons (.string _) (.cons (.string _) .nil))

theorem ValidBetween.numbersAreIntegers_encode (range : ValidBetween) :
    range.encode.NumbersAreIntegers :=
  .object (HoldIntegers.cons (.string _) (holdIntegers_optionalMember (fun _ => .string _) _ _))

theorem KeyValues.numbersAreIntegers_encode (kvs : KeyValues) : kvs.encode.NumbersAreIntegers := by
  refine .object fun m member => ?_
  obtain ⟨e, -, rfl⟩ := List.mem_map.mp member
  refine .array fun v memberV => ?_
  obtain ⟨s, -, rfl⟩ := List.mem_map.mp memberV
  exact .string s

theorem KeyValues.holdIntegers_member (kvs : KeyValues) : HoldIntegers kvs.member := by
  rw [member]
  split
  next => exact .nil
  next => exact .cons kvs.numbersAreIntegers_encode .nil

theorem Quay.numbersAreIntegers_encode {q : Quay} (integers : HoldIntegers q.others) :
    q.encode.NumbersAreIntegers := by
  have identifier {kind : IdentifierKind} (key : String) (id : Option (Identifier kind)) :
      HoldIntegers (optionalMember key Identifier.encode id) :=
    holdIntegers_optionalMember (fun _ => .string _) key id
  refine .object (HoldIntegers.append ?_ integers)
  refine .append (.append (.append (.append (.append (identifier _ _) ?_) ?_) ?_) ?_) ?_
  · exact .cons (.integer _) (identifier _ _)
  · exact holdIntegers_optionalMember PrivateCode.numbersAreIntegers_encode _ _
  · exact holdIntegers_optionalMember .string _ _
  · exact q.keyValues.holdIntegers_member
  · exact holdIntegers_optionalMember ValidBetween.numbersAreIntegers_encode _ _

/-- What is decoded from a value is read from its text, after which nothing is left. -/
theorem Decoder.read_text {α : Type} {decode : Decoder α} {v : Json}
    (integers : v.NumbersAreIntegers) {record : α} (decoded : decode v.tree = .ok record) :
    read decode v.text = .ok record := by
  refine read_eq_ok_iff.mpr ?_
  rw [Json.Tree.ofText_text integers]
  exact ⟨decoded, rfl⟩

/-- A quay is read back from its text. -/
theorem Quay.read_text {q : Quay} (kept : AreKept fields (greatestDepth - 1) q.others)
    (integers : HoldIntegers q.others) : read q.text = .ok q :=
  Decoder.read_text (numbersAreIntegers_encode integers) (decode_tree kept integers)

namespace StopPlace

theorem numbersAreIntegers_encode {place : StopPlace} (integers : place.HoldsIntegers) :
    place.encode.NumbersAreIntegers := by
  rw [encode_eq_object]
  refine .object (HoldIntegers.append ?_ integers.others)
  refine .append (.append (.append ?_ (.cons (.integer _) ?_)) ?_) ?_
  · exact holdIntegers_optionalMember (fun _ => .string _) _ _
  · exact holdIntegers_optionalMember .string _ _
  · exact holdIntegers_optionalMember PrivateCode.numbersAreIntegers_encode _ _
  · refine .cons (.array fun v member => ?_) .nil
    obtain ⟨q, memberQ, rfl⟩ := List.mem_map.mp member
    exact Quay.numbersAreIntegers_encode (integers.quays q memberQ)

/-- A stop place is read back from its text. -/
theorem read_text {place : StopPlace} (kept : place.IsKept) (integers : place.HoldsIntegers) :
    read place.text = .ok place :=
  Decoder.read_text (numbersAreIntegers_encode integers) (decode_tree kept integers)

theorem lineFeed_not_mem_text (place : StopPlace) : '\n' ∉ place.text :=
  Json.lineFeed_not_mem_text place.encode

/-- The text of a stop place stands in braces. -/
theorem exists_text_eq (place : StopPlace) : ∃ cs, place.text = '{' :: cs ++ ['}'] :=
  ⟨_, rfl⟩

end StopPlace

end QuayTimeline
