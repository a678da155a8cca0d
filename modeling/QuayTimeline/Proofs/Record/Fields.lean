import QuayTimeline.Proofs.Calendar.InstantText
import QuayTimeline.Proofs.Json.ReadBack
import QuayTimeline.Proofs.Outcome
import QuayTimeline.Proofs.Record.KeyValues
import QuayTimeline.Record.Decode
import QuayTimeline.Record.Encode

/-! # Fields read back

Members under different names are read one after the other. Each field of a record is read from the
member that is written for it, and an optional one leaves no member when it is absent. -/

namespace QuayTimeline

open Json (Tree)

namespace Decoder

variable {α : Type} {known : List String} {read : α → String → Decoder α}

/-- A text holds a record if it is that of a tree of the record, up to spaces. -/
theorem read_eq_ok_iff {decode : Decoder α} {cs : List Char} {record : α} :
    Decoder.read decode cs = .ok record ↔
      decode (Tree.ofText cs).1 = .ok record ∧ (Tree.ofText cs).2 = [] := by
  rw [Decoder.read]
  generalize Tree.ofText cs = taken
  obtain ⟨t, rest⟩ := taken
  rw [bind_eq_ok_iff]
  by_cases whole : rest = []
  · simp [whole]
  · simp [whole]

/-- Members under different names are read in turn. -/
theorem members_of_nodup {members : Members Json} (nodup : (members.map (·.1)).Nodup)
    {seen : List String} (fresh : ∀ m ∈ members, m.1 ∉ seen) (record : α) :
    Decoder.members known read record seen (members.map fun m => (some m.1, m.2.tree)) =
      members.foldlM (fun record m => read record m.1 m.2.tree) record := by
  induction members generalizing seen record with
  | nil => rfl
  | cons m rest ih =>
    obtain ⟨notLater, nodupRest⟩ := List.nodup_cons.mp nodup
    rw [List.map_cons, List.foldlM_cons, Decoder.members]
    have notSeen : ¬ (m.1 ∈ known ∧ m.1 ∈ seen) := fun repeated =>
      fresh m List.mem_cons_self repeated.2
    simp only [key, ok_bind, if_neg notSeen]
    congr 1
    funext next
    refine ih nodupRest (fun other member => ?_) next
    refine List.not_mem_cons_of_ne_of_not_mem (fun same => notLater ?_)
      (fresh other (List.mem_cons_of_mem _ member))
    exact List.mem_map.mpr ⟨other, member, same⟩

theorem object_of_nodup {members : Members Json} (nodup : (members.map (·.1)).Nodup) (blank : α) :
    object known read blank (Json.object members).tree =
      members.foldlM (fun record m => read record m.1 m.2.tree) blank := by
  rw [Json.tree, Json.memberTrees_eq_map, object]
  exact members_of_nodup nodup (fun m _ => List.not_mem_nil) blank

theorem objectOrArray_of_nodup {members : Members Json} (nodup : (members.map (·.1)).Nodup)
    (blank : α) :
    objectOrArray known read blank (Json.object members).tree =
      members.foldlM (fun record m => read record m.1 m.2.tree) blank :=
  object_of_nodup nodup blank

/-- The member of an optional field sets the field, and no member leaves it absent. -/
theorem foldlM_optionalMember {β : Type} {record : α} {key : String} {encode : β → Json}
    {field : Option β} (set : Option β → α) (absent : set none = record)
    (present : ∀ x, read record key (encode x).tree = .ok (set (some x))) :
    (optionalMember key encode field).foldlM (fun record m => read record m.1 m.2.tree) record =
      .ok (set field) := by
  cases field with
  | none => exact congrArg Except.ok absent.symm
  | some x =>
    rw [optionalMember, List.foldlM_cons, present x, ok_bind]
    rfl

end Decoder

theorem names_optionalMember_sublist {β : Type} (key : String) (encode : β → Json)
    (field : Option β) : ((optionalMember key encode field).map (·.1)).Sublist [key] := by
  cases field with
  | none => exact List.nil_sublist _
  | some x => exact List.Sublist.refl _

/-! ## Fields -/

theorem Decoder.string_tree (s : String) : Decoder.string (Json.string s).tree = .ok s := rfl

theorem Identifier.decode_encode {kind : IdentifierKind} (id : Identifier kind) :
    Decoder.identifier id.encode.tree = .ok id := by
  have found : Identifier.ofString? id.text = some id := dif_pos id.text_ne_empty
  simp only [Decoder.identifier, encode, Decoder.string_tree, ok_bind, found]

theorem Instant.decode_encode (t : Instant) : Decoder.instant t.encode.tree = .ok t := by
  simp only [Decoder.instant, encode, Decoder.string_tree, ok_bind, String.toList_ofList,
    read?_text]

theorem Decoder.int64_tree (n : Int64) : Decoder.int64 (Json.integer n.toInt).tree = .ok n := by
  have least := Int64.le_toInt n
  have bound := Int64.toInt_lt n
  have value : Json.Tree.value? 0 (Json.integer n.toInt).tree = some (.integer n.toInt) :=
    Json.NumberParts.value?_ofInt least (by omega)
  have read : Decoder.integer (Json.integer n.toInt).tree = .ok n.toInt := by
    rw [Decoder.integer, value]
  -- An integer without a sign may exceed 64 bits with one, but this one came from there.
  have highest : Int64.maxValue.toInt = 2 ^ 63 - 1 := Int64.toInt_maxValue
  have fits : Int64.minValue.toInt ≤ n.toInt ∧ n.toInt ≤ Int64.maxValue.toInt := ⟨least, by omega⟩
  rw [Decoder.int64, read, ok_bind, if_pos fits, Int64.ofInt_toInt]

theorem PrivateCode.decode_encode (code : PrivateCode) :
    Decoder.privateCode code.encode.tree = .ok code := rfl

theorem Decoder.optional_encode {α : Type} {decode : Decoder α} {encode : α → Json}
    (notNull : ∀ x, (encode x).tree ≠ .null)
    (decodes : ∀ x, decode (encode x).tree = .ok x) (x : α) :
    Decoder.optional decode (encode x).tree = .ok (some x) := by
  rw [Decoder.optional.eq_def]
  split
  next null => exact absurd null (notNull x)
  next => rw [decodes]; rfl

theorem ValidBetween.decode_encode (range : ValidBetween) :
    Decoder.validBetween range.encode.tree = .ok range := by
  have names := names_optionalMember_sublist "toDate" Instant.encode range.toDate
  have distinct : ["fromDate", "toDate"].Nodup := by decide
  have nodup : ((("fromDate", range.fromDate.encode) ::
      optionalMember "toDate" Instant.encode range.toDate).map (·.1)).Nodup :=
    distinct.sublist (names.cons_cons _)
  have fromDate : Decoder.validBetweenMember (none, none) "fromDate" range.fromDate.encode.tree =
      .ok (some range.fromDate, none) := by
    rw [Decoder.validBetweenMember, range.fromDate.decode_encode]
    rfl
  have toDate (t : Instant) : Decoder.validBetweenMember (some range.fromDate, none) "toDate"
      t.encode.tree = .ok (some range.fromDate, some t) := by
    rw [Decoder.validBetweenMember,
      Decoder.optional_encode (fun _ => Tree.noConfusion) Instant.decode_encode t]
    rfl
  rw [Decoder.validBetween, encode, Decoder.objectOrArray_of_nodup nodup, List.foldlM_cons,
    fromDate, ok_bind, Decoder.foldlM_optionalMember (fun toDate => (some range.fromDate, toDate))
      rfl toDate]
  rfl

theorem Decoder.list_encode {α : Type} {decode : Decoder α} {encode : α → Json} {items : List α}
    (decodes : ∀ x ∈ items, decode (encode x).tree = .ok x) :
    Decoder.list decode (Json.array (items.map encode)).tree = .ok items := by
  rw [Json.tree, Json.itemTrees_eq_map, Decoder.list, List.map_map]
  exact mapM_eq_ok_iff.mpr (List.forall₂_map_left_iff.mpr (List.forall₂_same.mpr decodes))

theorem KeyValues.decode_encode (kvs : KeyValues) :
    Decoder.keyValues kvs.encode.tree = .ok kvs := by
  rw [encode, Json.tree, Json.memberTrees_eq_map, Decoder.keyValues, map_eq_ok_iff]
  refine ⟨kvs.entries, ?_, kvs.ofList_entries⟩
  rw [List.map_map]
  refine mapM_eq_ok_iff.mpr (List.forall₂_map_left_iff.mpr (List.forall₂_same.mpr fun e _ => ?_))
  have items := Decoder.list_encode fun x (_ : x ∈ e.2) => Decoder.string_tree x
  simp only [Function.comp_apply, Decoder.key, items, ok_bind]
  rfl

end QuayTimeline
