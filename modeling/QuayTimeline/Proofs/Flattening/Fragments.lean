import QuayTimeline.Proofs.Flattening.Copies
import QuayTimeline.Proofs.Flattening.Groups
import QuayTimeline.Proofs.Timeline.Flatten

/-! # The fragments of a stop place

Before any zone comes in, the quays of a stop place are resolved into fragments, group after group.
A stop place is flattened by copying the owner of each fragment. The fragments stand in the order of
code and time, and quays that stand in this order already are their own fragments. -/

namespace QuayTimeline

open Timeline

/-- Fragments in the order of their codes, and of time within a code. -/
structure InOrder (fragments : List (PublicCode × Version PlacedQuay)) : Prop where
  covers : ∀ e ∈ fragments, e.2.validity.CoversSomeDay
  ordered : fragments.Pairwise fun e f =>
    e.1 < f.1 ∨ e.1 = f.1 ∧ e.2.validity.last < f.2.validity.start

/-- The fragments of a group, with its code. -/
def QuayGroup.fragments (group : QuayGroup) :
    Except FlatteningError (List (PublicCode × Version PlacedQuay)) := do
  return (← group.timeline).map (group.publicCode, ·)

/-- The fragments of the quays of a stop place. -/
def fragmentsOf (rules : FlatteningRules) (quays : List Quay) :
    Except FlatteningError (List (PublicCode × Version PlacedQuay)) := do
  let groups ← QuayGroup.ofQuays rules quays
  return (← groups.mapM QuayGroup.fragments).flatten

/-- The copy that stands for a fragment in a zone. -/
def copyOf (zone : Zone) (fragment : PublicCode × Version PlacedQuay) :
    Except FlatteningError Quay :=
  fragment.2.owner.quay.withValidity zone fragment.2.validity

/-! ## Copying fragments -/

theorem QuayGroup.flatten_of_fragments {zone : Zone} {group : QuayGroup}
    {fragments : List (PublicCode × Version PlacedQuay)}
    (resolved : group.fragments = .ok fragments) :
    group.flatten zone = fragments.mapM (copyOf zone) := by
  obtain ⟨timeline, built, ⟨rfl⟩⟩ := bind_eq_ok_iff.mp resolved
  rw [QuayGroup.flatten, built, ok_bind, List.mapM_map]
  rfl

/-- Groups are copied one after another, which is to copy all of their fragments. -/
theorem flatten_mapM_flatten {zone : Zone} {groups : List QuayGroup}
    {parts : List (List (PublicCode × Version PlacedQuay))}
    (resolved : groups.mapM QuayGroup.fragments = .ok parts) :
    List.flatten <$> groups.mapM (QuayGroup.flatten zone) =
      parts.flatten.mapM (copyOf zone) := by
  have related := mapM_eq_ok_iff.mp resolved
  clear resolved
  induction related with
  | nil => rfl
  | @cons group part rest parts first _ ih =>
    rw [List.mapM_cons, List.flatten_cons, List.mapM_append, ← ih,
      QuayGroup.flatten_of_fragments first]
    cases part.mapM (copyOf zone) with
    | error error => rfl
    | ok copies => cases rest.mapM (QuayGroup.flatten zone) <;> rfl

theorem mapM_flatten_eq_ok_iff {zone : Zone} {groups : List QuayGroup} {quays : List Quay} :
    (∃ parts, groups.mapM (QuayGroup.flatten zone) = .ok parts ∧ parts.flatten = quays) ↔
      ∃ parts, groups.mapM QuayGroup.fragments = .ok parts ∧
        parts.flatten.mapM (copyOf zone) = .ok quays := by
  constructor
  · rintro ⟨copies, taken, rfl⟩
    -- A group that is copied has been resolved before.
    obtain ⟨parts, resolved⟩ : ∃ parts, groups.mapM QuayGroup.fragments = .ok parts := by
      refine exists_mapM_eq_ok_iff.mpr fun group member => ?_
      obtain ⟨quays, flattened⟩ := exists_mapM_eq_ok_iff.mp ⟨copies, taken⟩ group member
      obtain ⟨timeline, resolved, -⟩ := bind_eq_ok_iff.mp flattened
      exact ⟨_, bind_eq_ok_iff.mpr ⟨timeline, resolved, rfl⟩⟩
    refine ⟨parts, resolved, ?_⟩
    rw [← flatten_mapM_flatten resolved, taken]
    rfl
  · rintro ⟨parts, resolved, copied⟩
    rw [← flatten_mapM_flatten resolved] at copied
    exact map_eq_ok_iff.mp copied

theorem StopPlace.flatten_of_fragmentsOf {rules : FlatteningRules} {zone : Zone}
    {place : StopPlace} (accepted : place.quays.any (rules.acceptsSource ·.sourceType?) = true)
    {fragments : List (PublicCode × Version PlacedQuay)}
    (resolved : fragmentsOf rules place.quays = .ok fragments) :
    place.flatten rules zone =
      (fun quays => { place with quays }) <$> fragments.mapM (copyOf zone) := by
  obtain ⟨groups, grouped, flattened⟩ := bind_eq_ok_iff.mp resolved
  obtain ⟨parts, taken, ⟨rfl⟩⟩ := bind_eq_ok_iff.mp flattened
  rw [StopPlace.flatten, if_pos accepted, grouped, ok_bind, ← flatten_mapM_flatten taken]
  cases groups.mapM (QuayGroup.flatten zone) <;> rfl

theorem StopPlace.flatten_eq_ok_iff {rules : FlatteningRules} {zone : Zone}
    {place result : StopPlace}
    (accepted : place.quays.any (rules.acceptsSource ·.sourceType?) = true) :
    place.flatten rules zone = .ok result ↔
      ∃ fragments quays, fragmentsOf rules place.quays = .ok fragments ∧
        fragments.mapM (copyOf zone) = .ok quays ∧ result = { place with quays } := by
  constructor
  · intro flattened
    rw [StopPlace.flatten, if_pos accepted] at flattened
    obtain ⟨groups, grouped, flattened⟩ := bind_eq_ok_iff.mp flattened
    obtain ⟨copies, taken, ⟨rfl⟩⟩ := bind_eq_ok_iff.mp flattened
    obtain ⟨fragments, resolved, copied⟩ := mapM_flatten_eq_ok_iff.mp ⟨copies, taken, rfl⟩
    exact ⟨_, _, bind_eq_ok_iff.mpr ⟨groups, grouped, bind_eq_ok_iff.mpr ⟨_, resolved, rfl⟩⟩,
      copied, rfl⟩
  · rintro ⟨fragments, quays, resolved, copied, rfl⟩
    rw [flatten_of_fragmentsOf accepted resolved, copied]
    rfl

theorem StopPlace.flatten_of_not_accepted {rules : FlatteningRules} {zone : Zone}
    {place : StopPlace} (none : ¬ place.quays.any (rules.acceptsSource ·.sourceType?) = true) :
    place.flatten rules zone = .ok place := by
  rw [StopPlace.flatten, if_neg none]
  rfl

/-! ## The order of fragments -/

theorem QuayGroup.fragments_eq_ok_iff {group : QuayGroup}
    {fragments : List (PublicCode × Version PlacedQuay)} :
    group.fragments = .ok fragments ↔ ∃ timeline : Timeline PlacedQuay,
      ClashFree group.versions ∧ Resolves group.versions timeline ∧
        timeline.map (group.publicCode, ·) = fragments := by
  simp only [QuayGroup.fragments, bind_eq_ok_iff, QuayGroup.timeline, Timeline.flatten_eq_ok_iff]
  constructor
  · rintro ⟨timeline, ⟨clashFree, resolves⟩, ⟨rfl⟩⟩
    exact ⟨timeline, clashFree, resolves, rfl⟩
  · rintro ⟨timeline, clashFree, resolves, rfl⟩
    exact ⟨timeline, ⟨clashFree, resolves⟩, rfl⟩

theorem fragmentsOf_eq_ok_iff {rules : FlatteningRules} {quays : List Quay}
    {fragments : List (PublicCode × Version PlacedQuay)} :
    fragmentsOf rules quays = .ok fragments ↔
      ∃ versions parts, QuayGroup.versionsOf rules quays = .ok versions ∧
        (QuayGroup.byPublicCode versions).mapM QuayGroup.fragments = .ok parts ∧
        parts.flatten = fragments := by
  simp only [fragmentsOf, QuayGroup.ofQuays, bind_eq_ok_iff, map_eq_ok_iff]
  constructor
  · rintro ⟨_, ⟨versions, read, rfl⟩, parts, taken, ⟨rfl⟩⟩
    exact ⟨versions, parts, read, taken, rfl⟩
  · rintro ⟨versions, parts, read, taken, rfl⟩
    exact ⟨_, ⟨versions, read, rfl⟩, parts, taken, rfl⟩

theorem InOrder.append {fragments others : List (PublicCode × Version PlacedQuay)}
    (first : InOrder fragments) (second : InOrder others)
    (codes : ∀ e ∈ fragments, ∀ f ∈ others, e.1 < f.1) : InOrder (fragments ++ others) where
  covers := fun e member => (List.mem_append.mp member).elim (first.covers e) (second.covers e)
  ordered := List.pairwise_append.mpr ⟨first.ordered, second.ordered,
    fun e memberE f memberF => .inl (codes e memberE f memberF)⟩

theorem Timeline.IsFlat.inOrder {timeline : Timeline PlacedQuay} (flat : timeline.IsFlat)
    (code : PublicCode) : InOrder (timeline.map (code, ·)) where
  covers := List.forall_mem_map.mpr flat.covers
  ordered := List.pairwise_map.mpr (flat.ordered.imp fun before => .inr ⟨rfl, before⟩)

theorem QuayGroup.publicCode_of_mem_fragments {group : QuayGroup}
    {fragments : List (PublicCode × Version PlacedQuay)}
    (resolved : group.fragments = .ok fragments) {e : PublicCode × Version PlacedQuay}
    (member : e ∈ fragments) : e.1 = group.publicCode := by
  obtain ⟨timeline, -, -, rfl⟩ := fragments_eq_ok_iff.mp resolved
  obtain ⟨v, -, rfl⟩ := List.mem_map.mp member
  rfl

/-- Groups in the order of their codes give fragments in order. -/
theorem inOrder_flatten {groups : List QuayGroup}
    {parts : List (List (PublicCode × Version PlacedQuay))}
    (ordered : groups.Pairwise fun g h => g.publicCode < h.publicCode)
    (taken : groups.mapM QuayGroup.fragments = .ok parts) : InOrder parts.flatten := by
  have related := mapM_eq_ok_iff.mp taken
  clear taken
  induction related with
  | nil => exact ⟨by simp, .nil⟩
  | @cons group part rest parts resolved related ih =>
    obtain ⟨below, orderedRest⟩ := List.pairwise_cons.mp ordered
    have codes : ∀ e ∈ part, ∀ f ∈ parts.flatten, e.1 < f.1 := by
      intro e memberE f memberF
      obtain ⟨other, memberOther, memberF⟩ := List.mem_flatten.mp memberF
      obtain ⟨h, memberH, resolvedH⟩ := exists_of_mem_right related memberOther
      rw [QuayGroup.publicCode_of_mem_fragments resolved memberE,
        QuayGroup.publicCode_of_mem_fragments resolvedH memberF]
      exact below h memberH
    obtain ⟨timeline, -, resolves, rfl⟩ := QuayGroup.fragments_eq_ok_iff.mp resolved
    exact (resolves.flat.inOrder group.publicCode).append (ih orderedRest) codes

/-- One fragment starts before another: under a lower code, or under the same code and earlier. -/
def StartsBefore (e f : PublicCode × Version PlacedQuay) : Prop :=
  e.1 < f.1 ∨ e.1 = f.1 ∧ e.2.validity.start < f.2.validity.start

theorem StartsBefore.asymm {e f : PublicCode × Version PlacedQuay} (before : StartsBefore e f) :
    ¬ StartsBefore f e := by
  intro after
  cases before with
  | inl before =>
    cases after with
    | inl after => exact Identifier.lt_irrefl _ (Identifier.lt_trans before after)
    | inr after => exact Identifier.lt_irrefl _ (after.1 ▸ before)
  | inr before =>
    cases after with
    | inl after => exact Identifier.lt_irrefl _ (before.1 ▸ after)
    | inr after => exact Int.lt_irrefl _ (Int.lt_trans before.2 after.2)

instance : Std.Irrefl StartsBefore :=
  ⟨fun _ before => before.asymm before⟩

instance : Std.Antisymm StartsBefore :=
  ⟨fun _ _ before after => absurd after before.asymm⟩

theorem InOrder.startsBefore {fragments : List (PublicCode × Version PlacedQuay)}
    (inOrder : InOrder fragments) : fragments.Pairwise StartsBefore := by
  refine inOrder.ordered.imp_of_mem fun {e f} member _ before => ?_
  exact before.imp_right fun ⟨code, before⟩ =>
    ⟨code, Int.lt_of_le_of_lt (inOrder.covers e member) before⟩

/-- Fragments in order are known by what they are. -/
theorem InOrder.eq_of_mem_iff {fragments others : List (PublicCode × Version PlacedQuay)}
    (inOrder : InOrder fragments) (othersInOrder : InOrder others)
    (same : ∀ e, e ∈ fragments ↔ e ∈ others) : fragments = others :=
  List.Pairwise.eq_of_mem_iff inOrder.startsBefore othersInOrder.startsBefore same

/-! ## Quays in order -/

/-- A flat timeline resolves itself. -/
theorem Timeline.IsFlat.resolves {α : Type} {timeline : Timeline α} (flat : timeline.IsFlat) :
    ClashFree timeline ∧ Resolves timeline timeline := by
  constructor
  · refine flat.ordered.imp fun {f g} before clash => ?_
    obtain ⟨-, d, memF, memG⟩ := clash
    exact Int.lt_irrefl _ (Int.lt_of_le_of_lt memF.2 (Int.lt_of_lt_of_le before memG.1))
  · refine ⟨flat, fun v d wins => ⟨v, wins.member, wins.mem⟩, fun f member => ?_⟩
    refine ⟨f, rfl, rfl, ?_, ?_, ?_, ?_⟩
    · exact flat.covers f member
    · intro d mem
      refine ⟨member, mem, fun w memberW memW => ?_⟩
      rw [flat.eq_of_mem memberW member memW mem]
      exact Int.le_refl _
    · intro d number wins
      have start : f.validity.start.number ≤ d.number := wins.mem.1
      omega
    · intro d number wins
      have last : d.number ≤ f.validity.last.number := wins.mem.2
      omega

theorem InOrder.isFlat_versions {versions : List (PublicCode × Version PlacedQuay)}
    (inOrder : InOrder versions) {group : QuayGroup}
    (member : group ∈ QuayGroup.byPublicCode versions) : IsFlat group.versions := by
  rw [(QuayGroup.mem_byPublicCode.mp member).2]
  constructor
  · intro f memberF
    obtain ⟨e, memberE, rfl⟩ := List.mem_map.mp memberF
    exact inOrder.covers e (List.mem_filter.mp memberE).1
  · refine List.pairwise_map.mpr ((inOrder.ordered.filter _).imp_of_mem ?_)
    intro e f memberE memberF before
    have codeE : e.1 = group.publicCode := by simpa using (List.mem_filter.mp memberE).2
    have codeF : f.1 = group.publicCode := by simpa using (List.mem_filter.mp memberF).2
    rw [codeE, codeF] at before
    exact (before.resolve_left (Identifier.lt_irrefl _)).2

/-- Versions that stand in order are fragments already. -/
theorem fragmentsOf_of_inOrder {rules : FlatteningRules} {quays : List Quay}
    {versions : List (PublicCode × Version PlacedQuay)}
    (read : QuayGroup.versionsOf rules quays = .ok versions) (inOrder : InOrder versions) :
    fragmentsOf rules quays = .ok versions := by
  have resolved : ∀ group ∈ QuayGroup.byPublicCode versions,
      group.fragments = .ok (group.versions.map (group.publicCode, ·)) := fun group member =>
    have ⟨clashFree, resolves⟩ := (inOrder.isFlat_versions member).resolves
    QuayGroup.fragments_eq_ok_iff.mpr ⟨_, clashFree, resolves, rfl⟩
  obtain ⟨parts, taken⟩ := exists_mapM_eq_ok_iff.mpr fun group member =>
    ⟨_, resolved group member⟩
  -- Grouping sorts by code, so the fragments are compared with the versions as sets, in order.
  have same : parts.flatten = versions := by
    refine (inOrder_flatten (QuayGroup.pairwise_byPublicCode versions) taken).eq_of_mem_iff inOrder
      fun ⟨code, w⟩ => ?_
    rw [List.mem_flatten]
    constructor
    · rintro ⟨part, memberPart, member⟩
      obtain ⟨group, memberGroup, resolvedGroup⟩ := (mem_of_mapM_eq_ok taken).mp memberPart
      rw [resolved group memberGroup] at resolvedGroup
      cases resolvedGroup
      obtain ⟨v, memberV, ⟨rfl⟩⟩ := List.mem_map.mp member
      exact (QuayGroup.mem_versions_of_mem memberGroup).mp memberV
    · intro member
      obtain ⟨group, memberGroup, rfl, memberW⟩ := QuayGroup.exists_group_of_mem member
      exact ⟨_, (mem_of_mapM_eq_ok taken).mpr ⟨group, memberGroup, resolved group memberGroup⟩,
        List.mem_map.mpr ⟨w, memberW, rfl⟩⟩
  exact fragmentsOf_eq_ok_iff.mpr ⟨versions, parts, read, taken, same⟩

/-! ## Days -/

/-- A version ranks above all others of its code that cover a day. -/
def Outranks (rules : FlatteningRules) (quays : List Quay) (code : PublicCode)
    (w : Version PlacedQuay) (d : Day) : Prop :=
  ∀ other, QuayGroup.IsVersionAt rules quays code other → other ≠ w → d ∈ other.validity →
    other.validity.priority < w.validity.priority

variable {rules : FlatteningRules} {quays : List Quay}
  {fragments : List (PublicCode × Version PlacedQuay)}

/-- A fragment holds on a day because a version outranks all others there. -/
theorem exists_version_of_mem (resolved : fragmentsOf rules quays = .ok fragments)
    {code : PublicCode} {f : Version PlacedQuay} (member : (code, f) ∈ fragments) {d : Day}
    (mem : d ∈ f.validity) :
    ∃ w, QuayGroup.IsVersionAt rules quays code w ∧ d ∈ w.validity ∧ f.owner = w.owner ∧
      f.validity.priority = w.validity.priority ∧ Outranks rules quays code w d := by
  obtain ⟨versions, parts, read, taken, rfl⟩ := fragmentsOf_eq_ok_iff.mp resolved
  obtain ⟨part, memberPart, memberF⟩ := List.mem_flatten.mp member
  obtain ⟨group, memberGroup, resolvedGroup⟩ := (mem_of_mapM_eq_ok taken).mp memberPart
  obtain ⟨timeline, clashFree, resolves, rfl⟩ := QuayGroup.fragments_eq_ok_iff.mp resolvedGroup
  obtain ⟨_, memberTimeline, ⟨rfl⟩⟩ := List.mem_map.mp memberF
  -- What the group knows of its versions, the quays say of themselves.
  have isVersion (v : Version PlacedQuay) :
      v ∈ group.versions ↔ QuayGroup.IsVersionAt rules quays group.publicCode v :=
    (QuayGroup.mem_versions_of_mem memberGroup).trans (QuayGroup.mem_versionsOf read)
  obtain ⟨w, run⟩ := resolves.run f memberTimeline
  have wins := run.wins d mem
  refine ⟨w, (isVersion w).mp wins.member, wins.mem, run.owner, run.priority, ?_⟩
  intro other version distinct memOther
  exact wins.outranks clashFree ((isVersion other).mpr version) distinct memOther

theorem QuayGroup.exists_fragment_of_version {group : QuayGroup}
    {part : List (PublicCode × Version PlacedQuay)} (resolved : group.fragments = .ok part)
    {w : Version PlacedQuay} (member : w ∈ group.versions) {d : Day} (mem : d ∈ w.validity) :
    ∃ f, (group.publicCode, f) ∈ part ∧ d ∈ f.validity := by
  obtain ⟨timeline, -, resolves, rfl⟩ := QuayGroup.fragments_eq_ok_iff.mp resolved
  obtain ⟨v, wins⟩ := exists_wins member mem
  obtain ⟨f, memberF, memF⟩ := resolves.covered v d wins
  exact ⟨f, List.mem_map.mpr ⟨f, memberF, rfl⟩, memF⟩

/-- Versions that were read cover some day, so no group of them is without fragments. -/
theorem QuayGroup.fragments_ne_nil {versions : List (PublicCode × Version PlacedQuay)}
    (read : QuayGroup.versionsOf rules quays = .ok versions) {group : QuayGroup}
    (member : group ∈ QuayGroup.byPublicCode versions)
    {part : List (PublicCode × Version PlacedQuay)} (resolved : group.fragments = .ok part) :
    part ≠ [] := by
  obtain ⟨⟨code, w⟩, memberW, same⟩ :=
    List.mem_map.mp (QuayGroup.mem_byPublicCode.mp member).1
  obtain rfl : code = group.publicCode := same
  have version := (QuayGroup.mem_versionsOf read).mp memberW
  have covers := VersionKeys.coversSomeDay_of_validity version.version.validity
  obtain ⟨f, memberF, -⟩ := QuayGroup.exists_fragment_of_version resolved
    ((QuayGroup.mem_versions_of_mem member).mpr memberW) (Validity.mem_start covers)
  exact List.ne_nil_of_mem memberF

/-- A day that a version covers belongs to some fragment of its code. -/
theorem exists_fragment_of_version (resolved : fragmentsOf rules quays = .ok fragments)
    {code : PublicCode} {w : Version PlacedQuay}
    (version : QuayGroup.IsVersionAt rules quays code w) {d : Day} (mem : d ∈ w.validity) :
    ∃ f, (code, f) ∈ fragments ∧ d ∈ f.validity := by
  obtain ⟨versions, parts, read, taken, rfl⟩ := fragmentsOf_eq_ok_iff.mp resolved
  obtain ⟨group, memberGroup, rfl, memberW⟩ :=
    QuayGroup.exists_group_of_mem ((QuayGroup.mem_versionsOf read).mpr version)
  obtain ⟨part, resolvedGroup⟩ := exists_mapM_eq_ok_iff.mp ⟨parts, taken⟩ group memberGroup
  have memberPart : part ∈ parts :=
    (mem_of_mapM_eq_ok taken).mpr ⟨group, memberGroup, resolvedGroup⟩
  obtain ⟨f, memberF, memF⟩ := QuayGroup.exists_fragment_of_version resolvedGroup memberW mem
  exact ⟨f, List.mem_flatten.mpr ⟨part, memberPart, memberF⟩, memF⟩

theorem inOrder_fragmentsOf (resolved : fragmentsOf rules quays = .ok fragments) :
    InOrder fragments := by
  obtain ⟨versions, parts, -, taken, rfl⟩ := fragmentsOf_eq_ok_iff.mp resolved
  exact inOrder_flatten (QuayGroup.pairwise_byPublicCode versions) taken

/-- The copy for a fragment is itself a version on the days of the fragment. -/
theorem isVersion_of_copyOf (resolved : fragmentsOf rules quays = .ok fragments)
    {fragment : PublicCode × Version PlacedQuay} (member : fragment ∈ fragments) {zone : Zone}
    {q : Quay} (copied : copyOf zone fragment = .ok q) :
    q.IsVersion rules fragment.1 fragment.2.validity := by
  -- The owner was published at its own priority, which the copy has as well.
  have covers := (inOrder_fragmentsOf resolved).covers fragment member
  obtain ⟨w, version, -, owner, priority, -⟩ :=
    exists_version_of_mem resolved member (Validity.mem_start covers)
  obtain ⟨range, -, rfl⟩ := Quay.withValidity_eq_ok_iff.mp copied
  have original := version.version
  rw [← owner] at original
  exact ⟨original.accepted, Quay.validity_copyFor _ _ _ covers, priority ▸ original.published,
    original.publicCode⟩

theorem forall₂_isVersion (resolved : fragmentsOf rules quays = .ok fragments) {zone : Zone}
    {copies : List Quay} (copied : fragments.mapM (copyOf zone) = .ok copies) :
    List.Forall₂ (fun e q => copyOf zone e = .ok q ∧ q.IsVersion rules e.1 e.2.validity)
      fragments copies := by
  have isVersion : ∀ e ∈ fragments, ∀ q, copyOf zone e = .ok q →
      q.IsVersion rules e.1 e.2.validity := fun e member q => isVersion_of_copyOf resolved member
  refine ((List.forall₂_and_left _ _).mpr ⟨isVersion, mapM_eq_ok_iff.mp copied⟩).imp ?_
  exact fun e q ⟨isVersion, copied⟩ => ⟨copied, isVersion q copied⟩

/-! ## What goes wrong -/

/-- A group that is not replaced by copies is not resolved, or holds from or up to a day that clocks
do not show. -/
theorem QuayGroup.follows_fragments (zone : Zone) (group : QuayGroup) :
    Follows (fun _ _ => True) Eq (·.hiddenDay?.isSome) group.fragments (group.flatten zone) := by
  refine (Follows.refl group.timeline).bind ?_
  rintro timeline _ rfl
  cases copied : timeline.mapM fun f => f.owner.quay.withValidity zone f.validity with
  | ok copies => exact .ok trivial
  | error error =>
    obtain ⟨f, -, failed⟩ := exists_of_mapM_eq_error copied
    exact .own (Option.isSome_iff_exists.mpr ⟨_, Quay.hiddenDay?_of_withValidity failed⟩)

theorem fragmentsOf_of_not_accepted
    (none : ¬ quays.any (rules.acceptsSource ·.sourceType?) = true) :
    fragmentsOf rules quays = .ok [] := by
  have notAccepted : ∀ q ∈ quays, ¬ rules.acceptsSource q.sourceType? = true :=
    fun q member accepted => none (List.any_eq_true.mpr ⟨q, member, accepted⟩)
  obtain ⟨versions, read⟩ := QuayGroup.exists_versionsOf_eq_ok_iff.mpr fun q member accepted =>
    absurd accepted (notAccepted q member)
  obtain rfl : versions = [] := by
    refine List.eq_nil_iff_forall_not_mem.mpr fun (code, w) member => ?_
    have version := (QuayGroup.mem_versionsOf read).mp member
    exact notAccepted _ (List.mem_of_getElem? version.placed) version.version.accepted
  exact fragmentsOf_of_inOrder read ⟨by simp, .nil⟩

/-- A stop place that is not flattened is not resolved, or clocks do not show some day. -/
theorem StopPlace.follows_fragmentsOf (rules : FlatteningRules) (zone : Zone) (place : StopPlace) :
    Follows (fun _ _ => True) Eq (·.hiddenDay?.isSome) (fragmentsOf rules place.quays)
      (place.flatten rules zone) := by
  by_cases accepted : place.quays.any (rules.acceptsSource ·.sourceType?) = true
  · rw [StopPlace.flatten, if_pos accepted, fragmentsOf]
    refine (Follows.refl _).bind ?_
    rintro groups _ rfl
    have groupwise : Follows (List.Forall₂ fun _ _ => True) Eq (·.hiddenDay?.isSome)
        (groups.mapM QuayGroup.fragments) (groups.mapM (QuayGroup.flatten zone)) := by
      refine Follows.mapM (List.forall₂_same.mpr fun group _ => rfl) ?_
      rintro group _ rfl
      exact QuayGroup.follows_fragments zone group
    exact groupwise.bind fun _ _ _ => .ok trivial
  · rw [flatten_of_not_accepted accepted, fragmentsOf_of_not_accepted accepted]
    exact .ok trivial

end QuayTimeline
