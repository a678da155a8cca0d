import QuayTimeline.Proofs.Record.Fields

/-! # Records read back

What is written of a record is read as that record. The other attributes stand under names that are
no fields, so no name comes twice: first the fields are filled in, and then the attributes. -/

namespace QuayTimeline

open Json (Tree)

/-- Attributes as they are kept beside the fields of a record: each under a name of its own that is
no field, and nested no deeper than is read. -/
structure AreKept (fields : List String) (room : Nat) (others : Members Json) : Prop where
  nodup : (others.map (·.1)).Nodup
  free : ∀ m ∈ others, m.1 ∉ fields
  fits : ∀ m ∈ others, m.2.Fits room

/-- All numbers in attributes are integers. -/
def HoldIntegers (others : Members Json) : Prop :=
  ∀ m ∈ others, m.2.NumbersAreIntegers

instance (others : Members Json) : Decidable (HoldIntegers others) :=
  Json.decidableMembersAreIntegers others

theorem AreKept.nodup_append {fields : List String} {room : Nat} {others : Members Json}
    (kept : AreKept fields room others) (distinct : fields.Nodup) {members : Members Json}
    (names : (members.map (·.1)).Sublist fields) : ((members ++ others).map (·.1)).Nodup := by
  rw [List.map_append]
  refine List.nodup_append.mpr ⟨distinct.sublist names, kept.nodup, ?_⟩
  rintro name member _ other rfl
  obtain ⟨m, memberOther, rfl⟩ := List.mem_map.mp other
  exact kept.free m memberOther (names.subset member)

theorem Decoder.value_tree {fields : List String} {room : Nat} {others : Members Json}
    (kept : AreKept fields room others) (integers : HoldIntegers others) {m : String × Json}
    (member : m ∈ others) : Decoder.value room m.2.tree = .ok m.2 := by
  rw [Decoder.value, Json.Tree.value?_tree (integers m member) (kept.fits m member)]

/-- Other attributes are put one after the other into a record. -/
theorem Decoder.foldlM_others {α : Type} {read : α → String → Decoder α} {fields : List String}
    {room : Nat} {others : Members Json} (kept : AreKept fields room others)
    (integers : HoldIntegers others) (fill : Members Json → α)
    (reads : ∀ before name t, name ∉ fields → read (fill before) name t =
      (value room t >>= fun v => .ok (fill (Members.put name v before)))) :
    others.foldlM (fun record m => read record m.1 m.2.tree) (fill []) = .ok (fill others) := by
  -- The attributes put so far are a first part of all, and the next name is not among theirs.
  have each (before rest : Members Json) (whole : before ++ rest = others) :
      rest.foldlM (fun record m => read record m.1 m.2.tree) (fill before) = .ok (fill others) := by
    induction rest generalizing before with
    | nil =>
      rw [← whole, List.append_nil]
      rfl
    | cons m rest ih =>
      have member : m ∈ others := whole ▸ List.mem_append_right _ List.mem_cons_self
      have fresh : m.1 ∉ before.map (·.1) := by
        have nodup := kept.nodup
        rw [← whole, List.map_append, List.nodup_append] at nodup
        exact fun found =>
          nodup.2.2 _ found _ (List.mem_map.mpr ⟨m, List.mem_cons_self, rfl⟩) rfl
      rw [List.foldlM_cons, reads before m.1 m.2.tree (kept.free m member),
        value_tree kept integers member, ok_bind, ok_bind, Members.put_of_not_mem fresh]
      exact ih (before ++ [m]) (by rw [← whole, ← List.append_cons])
  exact each [] others rfl

namespace Quay

/-- The members for the fields of a quay. -/
def fieldMembers (q : Quay) : Members Json :=
  optionalMember "netexId" Identifier.encode q.netexId
    ++ ("version", .integer q.version.toInt)
    :: optionalMember "publicCode" Identifier.encode q.publicCode
    ++ optionalMember "privateCode" PrivateCode.encode q.privateCode
    ++ optionalMember "name" Json.string q.name
    ++ q.keyValues.member
    ++ optionalMember "validBetween" ValidBetween.encode q.validBetween

theorem encode_eq_object (q : Quay) : q.encode = .object (q.fieldMembers ++ q.others) := rfl

theorem names_fieldMembers_sublist (q : Quay) : (q.fieldMembers.map (·.1)).Sublist fields := by
  have keyValues : (q.keyValues.member.map (·.1)).Sublist ["keyValues"] := by
    rw [KeyValues.member]
    split
    next => exact List.nil_sublist _
    next => exact List.Sublist.refl _
  simp only [fieldMembers, List.map_append, List.map_cons]
  exact (((((names_optionalMember_sublist _ _ _).append
    ((names_optionalMember_sublist _ _ _).cons_cons _)).append
    (names_optionalMember_sublist _ _ _)).append (names_optionalMember_sublist _ _ _)).append
    keyValues).append (names_optionalMember_sublist _ _ _)

theorem readMember_of_not_mem {name : String} (free : name ∉ fields) (room : Nat) (q : Quay)
    (t : Tree) : readMember room q name t =
      (Decoder.value room t >>= fun v => .ok { q with others := Members.put name v q.others }) := by
  rw [readMember.eq_def]
  split
  all_goals first | exact absurd (by decide) free | rfl

theorem foldlM_keyValues (room : Nat) (q : Quay) (kvs : KeyValues) (absent : q.keyValues = .empty) :
    kvs.member.foldlM (fun q m => readMember room q m.1 m.2.tree) q =
      .ok { q with keyValues := kvs } := by
  rw [KeyValues.member]
  split
  next empty =>
    have same : kvs = .empty := KeyValues.ext empty
    rw [same, ← absent]
    rfl
  next =>
    have read : readMember room q "keyValues" kvs.encode.tree =
        .ok { q with keyValues := kvs } := by
      rw [readMember, kvs.decode_encode]
      rfl
    rw [List.foldlM_cons, read]
    rfl

theorem foldlM_fieldMembers (room : Nat) (q : Quay) :
    q.fieldMembers.foldlM (fun q m => readMember room q m.1 m.2.tree) blank =
      .ok { q with others := [] } := by
  have netexId (p : Quay) (id : NetexId) : readMember room p "netexId" id.encode.tree =
      .ok { p with netexId := some id } := by
    rw [readMember, Decoder.optional_encode (fun _ => Tree.noConfusion) Identifier.decode_encode]
    rfl
  have version (p : Quay) : readMember room p "version" (Json.integer q.version.toInt).tree =
      .ok { p with version := q.version } := by
    rw [readMember, Decoder.int64_tree]
    rfl
  have publicCode (p : Quay) (code : PublicCode) : readMember room p "publicCode"
      code.encode.tree = .ok { p with publicCode := some code } := by
    rw [readMember, Decoder.optional_encode (fun _ => Tree.noConfusion) Identifier.decode_encode]
    rfl
  have privateCode (p : Quay) (code : PrivateCode) : readMember room p "privateCode"
      code.encode.tree = .ok { p with privateCode := some code } := by
    rw [readMember, Decoder.optional_encode (fun _ => Tree.noConfusion) PrivateCode.decode_encode]
    rfl
  have name (p : Quay) (s : String) : readMember room p "name" (Json.string s).tree =
      .ok { p with name := some s } := rfl
  have validBetween (p : Quay) (range : ValidBetween) : readMember room p "validBetween"
      range.encode.tree = .ok { p with validBetween := some range } := by
    rw [readMember, Decoder.optional_encode (fun _ => Tree.noConfusion) ValidBetween.decode_encode]
    rfl
  simp only [fieldMembers, List.foldlM_append]
  -- From the last member to the first one: before each the fields behind it are still blank.
  refine bind_eq_ok_iff.mpr ⟨⟨q.netexId, q.version, q.publicCode, q.privateCode, q.name,
    q.keyValues, none, []⟩, ?_, Decoder.foldlM_optionalMember
      (fun range => { q with validBetween := range, others := [] }) rfl (validBetween _)⟩
  refine bind_eq_ok_iff.mpr ⟨⟨q.netexId, q.version, q.publicCode, q.privateCode, q.name, .empty,
    none, []⟩, ?_, foldlM_keyValues room _ q.keyValues rfl⟩
  refine bind_eq_ok_iff.mpr ⟨⟨q.netexId, q.version, q.publicCode, q.privateCode, none, .empty,
    none, []⟩, ?_, Decoder.foldlM_optionalMember
      (Quay.mk q.netexId q.version q.publicCode q.privateCode · .empty none []) rfl (name _)⟩
  refine bind_eq_ok_iff.mpr ⟨⟨q.netexId, q.version, q.publicCode, none, none, .empty, none, []⟩,
    ?_, Decoder.foldlM_optionalMember
      (Quay.mk q.netexId q.version q.publicCode · none .empty none []) rfl (privateCode _)⟩
  refine bind_eq_ok_iff.mpr ⟨⟨q.netexId, 0, none, none, none, .empty, none, []⟩,
    Decoder.foldlM_optionalMember (Quay.mk · 0 none none none .empty none []) rfl (netexId _), ?_⟩
  rw [List.foldlM_cons, version, ok_bind]
  exact Decoder.foldlM_optionalMember (Quay.mk q.netexId q.version · none none .empty none []) rfl
    (publicCode _)

/-- A quay is read back from its tree. -/
theorem decode_tree {room : Nat} {q : Quay} (kept : AreKept fields room q.others)
    (integers : HoldIntegers q.others) : decode room q.encode.tree = .ok q := by
  have distinct : fields.Nodup := by decide
  rw [encode_eq_object, decode,
    Decoder.object_of_nodup (kept.nodup_append distinct q.names_fieldMembers_sublist),
    List.foldlM_append, foldlM_fieldMembers, ok_bind]
  exact Decoder.foldlM_others kept integers (fun others => { q with others })
    fun before name t free => readMember_of_not_mem free room _ t

end Quay

namespace StopPlace

/-- The members for the fields of a stop place. -/
def fieldMembers (place : StopPlace) : Members Json :=
  optionalMember "netexId" Identifier.encode place.netexId
    ++ ("version", .integer place.version.toInt)
    :: optionalMember "name" Json.string place.name
    ++ optionalMember "privateCode" PrivateCode.encode place.privateCode
    ++ [("quays", .array (place.quays.map Quay.encode))]

theorem encode_eq_object (place : StopPlace) :
    place.encode = .object (place.fieldMembers ++ place.others) := by
  simp only [encode, fieldMembers, List.append_assoc, List.cons_append, List.nil_append]

theorem names_fieldMembers_sublist (place : StopPlace) :
    (place.fieldMembers.map (·.1)).Sublist fields := by
  simp only [fieldMembers, List.map_append, List.map_cons]
  exact (((names_optionalMember_sublist _ _ _).append
    ((names_optionalMember_sublist _ _ _).cons_cons _)).append
    (names_optionalMember_sublist _ _ _)).append (List.Sublist.refl _)

theorem readMember_of_not_mem {name : String} (free : name ∉ fields) (place : StopPlace)
    (t : Tree) : readMember place name t = (Decoder.value (greatestDepth - 1) t >>= fun v =>
      .ok { place with others := Members.put name v place.others }) := by
  rw [readMember.eq_def]
  split
  all_goals first | exact absurd (by decide) free | rfl

/-- A stop place as it is kept: with attributes that can be read, its own and those of quays. -/
structure IsKept (place : StopPlace) : Prop where
  others : AreKept fields (greatestDepth - 1) place.others
  quays : ∀ q ∈ place.quays, AreKept Quay.fields (greatestDepth - 3) q.others

/-- All numbers in the other attributes of a stop place and of its quays are integers. -/
structure HoldsIntegers (place : StopPlace) : Prop where
  others : HoldIntegers place.others
  quays : ∀ q ∈ place.quays, HoldIntegers q.others

theorem foldlM_fieldMembers {place : StopPlace} (kept : place.IsKept)
    (integers : place.HoldsIntegers) :
    place.fieldMembers.foldlM (fun place m => readMember place m.1 m.2.tree) blank =
      .ok { place with others := [] } := by
  have netexId (p : StopPlace) (id : NetexId) : readMember p "netexId" id.encode.tree =
      .ok { p with netexId := some id } := by
    rw [readMember, Decoder.optional_encode (fun _ => Tree.noConfusion) Identifier.decode_encode]
    rfl
  have version (p : StopPlace) : readMember p "version" (Json.integer place.version.toInt).tree =
      .ok { p with version := place.version } := by
    rw [readMember, Decoder.int64_tree]
    rfl
  have name (p : StopPlace) (s : String) : readMember p "name" (Json.string s).tree =
      .ok { p with name := some s } := rfl
  have privateCode (p : StopPlace) (code : PrivateCode) : readMember p "privateCode"
      code.encode.tree = .ok { p with privateCode := some code } := by
    rw [readMember, Decoder.optional_encode (fun _ => Tree.noConfusion) PrivateCode.decode_encode]
    rfl
  have quays (p : StopPlace) : readMember p "quays"
      (Json.array (place.quays.map Quay.encode)).tree = .ok { p with quays := place.quays } := by
    rw [readMember, Decoder.list_encode fun q member =>
      Quay.decode_tree (kept.quays q member) (integers.quays q member)]
    rfl
  simp only [fieldMembers, List.foldlM_append]
  refine bind_eq_ok_iff.mpr ⟨⟨place.netexId, place.version, place.name, place.privateCode, [], []⟩,
    ?_, ?_⟩
  · refine bind_eq_ok_iff.mpr ⟨⟨place.netexId, place.version, place.name, none, [], []⟩, ?_,
      Decoder.foldlM_optionalMember
        (StopPlace.mk place.netexId place.version place.name · [] []) rfl (privateCode _)⟩
    refine bind_eq_ok_iff.mpr ⟨⟨place.netexId, 0, none, none, [], []⟩,
      Decoder.foldlM_optionalMember (StopPlace.mk · 0 none none [] []) rfl (netexId _), ?_⟩
    rw [List.foldlM_cons, version, ok_bind]
    exact Decoder.foldlM_optionalMember
      (StopPlace.mk place.netexId place.version · none [] []) rfl (name _)
  · rw [List.foldlM_cons, quays]
    rfl

/-- A stop place is read back from its tree. -/
theorem decode_tree {place : StopPlace} (kept : place.IsKept) (integers : place.HoldsIntegers) :
    decode place.encode.tree = .ok place := by
  have distinct : fields.Nodup := by decide
  rw [encode_eq_object, decode,
    Decoder.object_of_nodup (kept.others.nodup_append distinct place.names_fieldMembers_sublist),
    List.foldlM_append, foldlM_fieldMembers kept integers, ok_bind]
  exact Decoder.foldlM_others kept.others integers.others (fun others => { place with others })
    fun before name t free => readMember_of_not_mem free _ t

end StopPlace

end QuayTimeline
