import QuayTimeline.Proofs.Flattening.Instants

/-! # Flattening again

The quays of a flattened stop place stand in order, so they are their own fragments, and the copy of
a copy is the copy that the first quay would give. Hence a second pass in another zone returns what
the first pass would have returned there. -/

namespace QuayTimeline

open QuayGroup

variable {rules : FlatteningRules}

/-- A fragment whose owner is a copy made for it. -/
structure IsCopied (zone : Zone) (e found : PublicCode × Version PlacedQuay) : Prop where
  publicCode : found.1 = e.1
  validity : found.2.validity = e.2.validity
  copied : copyOf zone e = .ok found.2.owner.quay

/-- Two faults are about the same day, which clocks do not show. -/
def FlatteningError.HideSameDay (error other : FlatteningError) : Prop :=
  ∃ d, error.hiddenDay? = some d ∧ other.hiddenDay? = some d

/-- A copy is copied in any zone as the quay that it was made from. -/
theorem IsCopied.follows_copyOf {zone other : Zone} {e found : PublicCode × Version PlacedQuay}
    (isCopied : IsCopied zone e found) :
    Follows Eq FlatteningError.HideSameDay (fun _ => False) (copyOf other e)
      (copyOf other found) := by
  obtain ⟨range, -, copy⟩ := Quay.withValidity_eq_ok_iff.mp isCopied.copied
  simp only [copyOf, Quay.withValidity_eq, isCopied.validity, copy, Quay.copyFor_copyFor]
  cases other.rangeOf? e.2.validity with
  | some shown => exact .ok rfl
  | none => exact .error ⟨_, rfl, rfl⟩

theorem exists_mapM_version? {zone : Zone} {copies : List Quay}
    {fragments : List (PublicCode × Version PlacedQuay)}
    (related : List.Forall₂
      (fun e q => copyOf zone e = .ok q ∧ q.IsVersion rules e.1 e.2.validity) fragments copies)
    (position : Nat) :
    ∃ found, ((copies.zipIdx position).mapM fun (q, i) => version? rules ⟨q, i⟩) =
        .ok (found.map some) ∧ List.Forall₂ (IsCopied zone) fragments found := by
  -- The position only numbers the owners.
  induction related generalizing position with
  | nil => exact ⟨[], rfl, .nil⟩
  | @cons e q fragments copies first _ ih =>
    obtain ⟨copied, isVersion⟩ := first
    obtain ⟨found, taken, isCopied⟩ := ih (position + 1)
    have read : version? rules ⟨q, position⟩ =
        .ok (some (e.1, ⟨⟨q, position⟩, e.2.validity⟩)) :=
      version?_eq_ok_some_iff.mpr ⟨isVersion, rfl⟩
    refine ⟨(e.1, ⟨⟨q, position⟩, e.2.validity⟩) :: found, ?_, .cons ⟨rfl, rfl, copied⟩ isCopied⟩
    rw [List.zipIdx_cons, List.mapM_cons]
    simp only [read, ok_bind, taken]
    rfl

theorem IsCopied.inOrder {zone : Zone} {fragments found : List (PublicCode × Version PlacedQuay)}
    (related : List.Forall₂ (IsCopied zone) fragments found) (inOrder : InOrder fragments) :
    InOrder found := by
  constructor
  · intro f member
    obtain ⟨e, memberE, isCopied⟩ := exists_of_mem_right related member
    exact isCopied.validity ▸ inOrder.covers e memberE
  · refine pairwise_of_forall₂ related (fun e f x y first second before => ?_) inOrder.ordered
    rw [first.publicCode, second.publicCode, first.validity, second.validity]
    exact before

/-- The fragments of copies made for fragments are the same fragments, now owned by the copies. -/
theorem exists_fragmentsOf_copies {zone : Zone} {quays copies : List Quay}
    {fragments : List (PublicCode × Version PlacedQuay)}
    (resolved : fragmentsOf rules quays = .ok fragments)
    (copied : fragments.mapM (copyOf zone) = .ok copies) :
    ∃ found, fragmentsOf rules copies = .ok found ∧
      List.Forall₂ (IsCopied zone) fragments found := by
  -- Each copy is read as the version on the days of its fragment, and none is left out.
  obtain ⟨found, taken, isCopied⟩ := exists_mapM_version? (forall₂_isVersion resolved copied) 0
  have read : versionsOf rules copies = .ok found := by
    rw [versionsOf, taken, ok_bind, List.filterMap_map]
    exact congrArg Except.ok List.filterMap_some
  have inOrder := IsCopied.inOrder isCopied (inOrder_fragmentsOf resolved)
  exact ⟨found, fragmentsOf_of_inOrder read inOrder, isCopied⟩

/-- Every copy comes from an accepted source, so where there is none there are no fragments. -/
theorem eq_nil_of_not_accepted {zone : Zone} {quays copies : List Quay}
    {fragments : List (PublicCode × Version PlacedQuay)}
    (resolved : fragmentsOf rules quays = .ok fragments)
    (copied : fragments.mapM (copyOf zone) = .ok copies)
    (none : ¬ copies.any (rules.acceptsSource ·.sourceType?) = true) :
    fragments = [] ∧ copies = [] := by
  have empty : copies = [] := by
    refine List.eq_nil_iff_forall_not_mem.mpr fun q member => none ?_
    obtain ⟨e, -, -, isVersion⟩ := exists_of_mem_right (forall₂_isVersion resolved copied) member
    exact List.any_eq_true.mpr ⟨q, member, isVersion.accepted⟩
  subst empty
  exact ⟨List.forall₂_nil_right_iff.mp (mapM_eq_ok_iff.mp copied), rfl⟩

/-- Flattening a flattened stop place in some zone ends as flattening the first one there does. -/
theorem StopPlace.follows_flatten {zone : Zone} {place result : StopPlace}
    (flattened : place.flatten rules zone = .ok result) (other : Zone) :
    Follows Eq FlatteningError.HideSameDay (fun _ => False) (place.flatten rules other)
      (result.flatten rules other) := by
  by_cases accepted : place.quays.any (rules.acceptsSource ·.sourceType?) = true
  · obtain ⟨fragments, quays, resolved, copied, rfl⟩ := (flatten_eq_ok_iff accepted).mp flattened
    obtain ⟨found, resolvedAgain, isCopied⟩ := exists_fragmentsOf_copies resolved copied
    rw [flatten_of_fragmentsOf accepted resolved]
    by_cases acceptedAgain : quays.any (rules.acceptsSource ·.sourceType?) = true
    · rw [flatten_of_fragmentsOf acceptedAgain resolvedAgain]
      refine (Follows.mapM isCopied fun e f pair => pair.follows_copyOf).map ?_
      rintro first again same
      rw [List.forall₂_eq_eq_eq] at same
      rw [same]
    · rw [flatten_of_not_accepted acceptedAgain]
      -- Only drafts were there, so both passes leave no quay.
      obtain ⟨rfl, rfl⟩ := eq_nil_of_not_accepted resolved copied acceptedAgain
      exact .ok rfl
  · rw [flatten_of_not_accepted accepted] at flattened ⊢
    cases flattened
    rw [flatten_of_not_accepted accepted]
    exact .ok rfl

theorem StopPlace.flatten_flatten_eq_ok_iff {zone other : Zone} {place result again : StopPlace}
    (flattened : place.flatten rules zone = .ok result) :
    result.flatten rules other = .ok again ↔ place.flatten rules other = .ok again :=
  (follows_flatten flattened other).eq_ok_iff

/-- Flattening a flattened stop place in any zone returns what flattening the first one there would
have returned, and fails where that would, for the same day. In the same zone it changes nothing. -/
theorem StopPlace.flatten_again {zone : Zone} {place result : StopPlace}
    (flattened : place.flatten rules zone = .ok result) :
    (∀ other again, result.flatten rules other = .ok again ↔
      place.flatten rules other = .ok again) ∧
    (∀ other error, result.flatten rules other = .error error →
      ∃ first, place.flatten rules other = .error first ∧ first.HideSameDay error) ∧
    result.flatten rules zone = .ok result := by
  refine ⟨fun other again => flatten_flatten_eq_ok_iff flattened, fun other error failed => ?_,
    (flatten_flatten_eq_ok_iff flattened).mpr flattened⟩
  exact ((follows_flatten flattened other).own_or_exists_of_error failed).resolve_left not_false

/-- A place flattened for Chile is flattened for Newfoundland as if Chile had never come in. -/
theorem StopPlace.flatten_again_novemberPlace :
    ∃ result again, novemberPlace.flatten .default ZoneTable.santiago = .ok result ∧
      novemberPlace.flatten .default ZoneTable.stJohns = .ok again ∧ result ≠ again ∧
      result.flatten .default ZoneTable.stJohns = .ok again ∧
      result.flatten .default ZoneTable.santiago = .ok result := by
  have shownChile : ∀ v ∈ [beforeNovember7, fromNovember7],
      (ZoneTable.santiago.rangeOf? v).isSome := by decide +kernel
  have shownNewfoundland : ∀ v ∈ [beforeNovember7, fromNovember7],
      (ZoneTable.stJohns.rangeOf? v).isSome := by decide +kernel
  obtain ⟨range, later, found, -, flattened⟩ := exists_flatten_novemberPlace shownChile
  obtain ⟨other, otherLater, foundOther, -, flattenedOther⟩ :=
    exists_flatten_novemberPlace shownNewfoundland
  obtain ⟨anyZone, -, sameZone⟩ := flatten_again flattened
  refine ⟨_, _, flattened, flattenedOther, fun same => ?_, (anyZone _ _).mpr flattenedOther,
    sameZone⟩
  have ranges : some range = some other :=
    congrArg (fun place => place.quays.head?.bind (·.validBetween)) same
  rw [← found, ← foundOther] at ranges
  exact absurd ranges (by decide +kernel)

end QuayTimeline
