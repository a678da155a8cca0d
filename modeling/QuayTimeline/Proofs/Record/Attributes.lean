import QuayTimeline.Proofs.Record.Kept

/-! # Attributes of records

The attributes of a record are the members of its object that are no fields. In a text their names
may repeat and stand anywhere between the fields; the record keeps them merged, and the text that is
written of it has them just so. -/

namespace QuayTimeline

open Json (Tree)

namespace Json.Tree

/-- A member whose name is no field. -/
def Member.IsOutside (fields : List String) (m : Member) : Bool :=
  m.1.all fun name => decide (name ∉ fields)

/-- The members of an object that are no fields, with their values, in the order of the text. -/
def attributes? (fields : List String) (room : Nat) : Tree → Option (Members Json)
  | .object members => memberValues? room (members.filter (Member.IsOutside fields))
  | _ => none

/-- The items that a member holds if it is an array under a name. -/
def Member.itemsUnder (name : String) : Member → List Tree
  | (some key, .array items) => if key = name then items else []
  | _ => []

theorem Member.itemsUnder_self (name : String) (items : List Tree) :
    itemsUnder name (some name, .array items) = items :=
  if_pos rfl

theorem Member.itemsUnder_of_ne {name key : String} (distinct : key ≠ name) (t : Tree) :
    itemsUnder name (some key, t) = [] := by
  cases t with
  | array items => exact if_neg distinct
  | _ => rfl

/-- The items of the array under a name in an object. -/
def itemsUnder (name : String) : Tree → List Tree
  | .object members => members.flatMap (Member.itemsUnder name)
  | _ => []

/-- One tree has the attributes of another one, merged. -/
def HasAttributesOf (fields : List String) (room : Nat) (t source : Tree) : Prop :=
  ∃ members merged, source.attributes? fields room = some members ∧
    t.attributes? fields room = some merged ∧ merged.IsMergeOf members

end Json.Tree

open Json.Tree (memberValues?)

/-! ## Reading -/

namespace Decoder

variable {α : Type} {known : List String} {read : α → String → Decoder α}
  {others : α → Members Json} {room : Nat}

/-- Whatever puts its attributes in turn among others, and leaves them alone for its fields, ends up
with all attributes put in turn. -/
theorem attributes_of_members
    (field : ∀ record name t next, name ∈ known → read record name t = .ok next →
      others next = others record)
    (free : ∀ record name t next, name ∉ known → read record name t = .ok next →
      ∃ v, t.value? room = some v ∧ others next = Members.put name v (others record))
    {ms : List Tree.Member} {record result : α} {seen : List String}
    (returned : members known read record seen ms = .ok result) :
    ∃ values, memberValues? room (ms.filter (Tree.Member.IsOutside known)) = some values ∧
      others result =
        values.foldl (fun merged m => Members.put m.1 m.2 merged) (others record) := by
  induction ms generalizing record seen with
  | nil =>
    cases returned
    exact ⟨[], rfl, rfl⟩
  | cons m rest ih =>
    obtain ⟨name?, t⟩ := m
    obtain ⟨name, next, rfl, -, taken, returned⟩ := exists_of_members_cons returned
    obtain ⟨values, found, same⟩ := ih returned
    by_cases inside : name ∈ known
    · refine ⟨values, ?_, ?_⟩
      · rw [List.filter_cons_of_neg (by simpa [Tree.Member.IsOutside] using inside), found]
      · rw [same, field record name t next inside taken]
    · obtain ⟨v, value, put⟩ := free record name t next inside taken
      refine ⟨(name, v) :: values, ?_, ?_⟩
      · rw [List.filter_cons_of_pos (by simpa [Tree.Member.IsOutside] using inside)]
        simp only [memberValues?, value, found]
        rfl
      · rw [same, put, List.foldl_cons]

theorem attributes_of_object
    (field : ∀ record name t next, name ∈ known → read record name t = .ok next →
      others next = others record)
    (free : ∀ record name t next, name ∉ known → read record name t = .ok next →
      ∃ v, t.value? room = some v ∧ others next = Members.put name v (others record))
    {blank result : α} (bare : others blank = []) {t : Tree}
    (returned : object known read blank t = .ok result) :
    ∃ values, t.attributes? known room = some values ∧ others result = Members.unique values := by
  cases t with
  | object ms =>
    obtain ⟨values, found, same⟩ := attributes_of_members field free returned
    exact ⟨values, found, by rw [same, bare]; rfl⟩
  | _ => cases returned

end Decoder

/-- The attributes of a quay are those in its tree, merged. -/
theorem Quay.attributes_of_decode {room : Nat} {t : Tree} {q : Quay}
    (read : decode room t = .ok q) :
    ∃ values, t.attributes? fields room = some values ∧ q.others = Members.unique values := by
  refine Decoder.attributes_of_object
    (fun q name t next field read => others_of_readMember field read)
    (fun q name t next free read => ?_) rfl read
  rw [readMember_of_not_mem free] at read
  obtain ⟨v, found, ⟨rfl⟩⟩ := bind_eq_ok_iff.mp read
  exact ⟨v, Decoder.value_eq_ok_iff.mp found, rfl⟩

theorem StopPlace.attributes_of_decode {t : Tree} {place : StopPlace}
    (read : decode t = .ok place) : ∃ values,
      t.attributes? fields (greatestDepth - 1) = some values ∧
        place.others = Members.unique values := by
  refine Decoder.attributes_of_object
    (fun place name t next field read => others_of_readMember field read)
    (fun place name t next free read => ?_) rfl read
  rw [readMember_of_not_mem free] at read
  obtain ⟨v, found, ⟨rfl⟩⟩ := bind_eq_ok_iff.mp read
  exact ⟨v, Decoder.value_eq_ok_iff.mp found, rfl⟩

/-- The quays of a stop place are the items under their name, which does not come twice. -/
theorem StopPlace.forall₂_of_members {ms : List Tree.Member} {place result : StopPlace}
    {seen : List String} {items : List Tree}
    (returned : Decoder.members fields readMember place seen ms = .ok result)
    (decoded : List.Forall₂ (fun t q => Quay.decode (greatestDepth - 3) t = .ok q)
      items place.quays)
    (unseen : "quays" ∉ seen → items = []) :
    List.Forall₂ (fun t q => Quay.decode (greatestDepth - 3) t = .ok q)
      (items ++ ms.flatMap (Tree.Member.itemsUnder "quays")) result.quays := by
  induction ms generalizing place seen items with
  | nil =>
    cases returned
    simpa using decoded
  | cons m rest ih =>
    obtain ⟨name?, t⟩ := m
    obtain ⟨name, next, rfl, fresh, taken, finished⟩ := Decoder.exists_of_members_cons returned
    rw [List.flatMap_cons]
    by_cases same : name = "quays"
    · subst same
      obtain ⟨more, rfl, decodedMore⟩ := quays_of_readMember taken
      rw [unseen (fresh (by decide)), Tree.Member.itemsUnder_self, List.nil_append]
      exact ih finished (mapM_eq_ok_iff.mp decodedMore) fun absent =>
        absurd List.mem_cons_self absent
    · rw [Tree.Member.itemsUnder_of_ne same, List.nil_append]
      refine ih finished ?_ fun absent => unseen fun found => absent (List.mem_cons_of_mem _ found)
      rw [quays_of_readMember_of_ne same taken]
      exact decoded

theorem StopPlace.forall₂_of_decode {t : Tree} {place : StopPlace} (read : decode t = .ok place) :
    List.Forall₂ (fun t q => Quay.decode (greatestDepth - 3) t = .ok q)
      (t.itemsUnder "quays") place.quays := by
  cases t with
  | object ms => exact forall₂_of_members read .nil fun _ => rfl
  | _ => cases read

/-! ## Writing -/

theorem Json.attributes?_tree {fields : List String} {room : Nat} {members others : Members Json}
    (names : (members.map (·.1)).Sublist fields) (kept : AreKept fields room others)
    (integers : HoldIntegers others) :
    (Json.object (members ++ others)).tree.attributes? fields room = some others := by
  rw [Json.tree, Json.memberTrees_eq_map, Json.Tree.attributes?, List.map_append,
    List.filter_append]
  have inside : (members.map fun m => (some m.1, m.2.tree)).filter
      (Tree.Member.IsOutside fields) = [] := by
    refine List.filter_eq_nil_iff.mpr fun t member outside => ?_
    obtain ⟨m, memberM, rfl⟩ := List.mem_map.mp member
    exact of_decide_eq_true outside (names.subset (List.mem_map.mpr ⟨m, memberM, rfl⟩))
  have outside : (others.map fun m => (some m.1, m.2.tree)).filter
      (Tree.Member.IsOutside fields) = others.map fun m => (some m.1, m.2.tree) := by
    refine List.filter_eq_self.mpr fun t member => ?_
    obtain ⟨m, memberM, rfl⟩ := List.mem_map.mp member
    exact decide_eq_true (kept.free m memberM)
  rw [inside, outside, List.nil_append]
  refine Tree.memberValues?_eq_some_iff.mpr
    (List.forall₂_map_left_iff.mpr (List.forall₂_same.mpr fun m member => ⟨rfl, ?_⟩))
  exact Tree.value?_tree (integers m member) (kept.fits m member)

/-- A record with the merged attributes of a tree is written with them. -/
theorem Json.Tree.hasAttributesOf_object {fields : List String} {room : Nat} {source : Tree}
    {values members others : Members Json} (found : source.attributes? fields room = some values)
    (merged : others = Members.unique values) (names : (members.map (·.1)).Sublist fields)
    (kept : AreKept fields room others) (integers : HoldIntegers others) :
    (Json.object (members ++ others)).tree.HasAttributesOf fields room source :=
  ⟨values, others, found, Json.attributes?_tree names kept integers,
    merged ▸ Members.isMergeOf_unique values⟩

theorem StopPlace.itemsUnder_tree {place : StopPlace}
    (kept : AreKept fields (greatestDepth - 1) place.others) :
    place.encode.tree.itemsUnder "quays" = place.quays.map (·.encode.tree) := by
  have absent (members : Members Json) (free : ∀ m ∈ members, m.1 ≠ "quays") :
      (members.map fun m => (some m.1, m.2.tree)).flatMap (Tree.Member.itemsUnder "quays") =
        [] := by
    refine List.flatMap_eq_nil_iff.mpr fun t member => ?_
    obtain ⟨m, memberM, rfl⟩ := List.mem_map.mp member
    exact Tree.Member.itemsUnder_of_ne (free m memberM) _
  obtain ⟨scalars, names, split⟩ : ∃ scalars : Members Json,
      (scalars.map (·.1)).Sublist ["netexId", "version", "name", "privateCode"] ∧
        place.fieldMembers = scalars ++ [("quays", .array (place.quays.map Quay.encode))] := by
    refine ⟨_, ?_, rfl⟩
    simp only [List.map_append, List.map_cons]
    exact ((names_optionalMember_sublist _ _ _).append
      ((names_optionalMember_sublist _ _ _).cons_cons _)).append
        (names_optionalMember_sublist _ _ _)
  have scalarsFree : ∀ m ∈ scalars, m.1 ≠ "quays" := by
    intro m member same
    have found := names.subset (List.mem_map.mpr ⟨m, member, rfl⟩)
    rw [same] at found
    exact absurd found (by decide)
  have othersFree : ∀ m ∈ place.others, m.1 ≠ "quays" := fun m member same =>
    kept.free m member (same ▸ by decide)
  rw [encode_eq_object, Json.tree, Json.memberTrees_eq_map, Tree.itemsUnder, split]
  simp only [List.map_append, List.flatMap_append, absent scalars scalarsFree,
    absent place.others othersFree, List.map_singleton, List.flatMap_singleton, Json.tree,
    Json.itemTrees_eq_map, Tree.Member.itemsUnder_self, List.nil_append, List.append_nil,
    List.map_map]
  rfl

end QuayTimeline
