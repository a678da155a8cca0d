import QuayTimeline.Proofs.Flattening.Fragments
import QuayTimeline.Proofs.Flattening.Positions
import QuayTimeline.Proofs.Record.Checks

/-! # Faults

A stop place is not flattened for one of four reasons. Two of them lie with a single quay, and the
first such quay is reported. The other two lie with a public code: two versions of it are in
conflict, or clocks do not show the start or the end of one of its fragments. They are looked for
only when no quay is at fault, and the lowest such code is reported. -/

namespace QuayTimeline

open Timeline QuayGroup

/-! ## Quays -/

/-- What is wrong with an imported quay by itself. -/
inductive Quay.IsAtFault (rules : FlatteningRules) (q : Quay) : FlatteningError → Prop
  /-- Its validity cannot be read, be it a draft or not. -/
  | unreadable {error : FlatteningError} (accepted : rules.acceptsSource q.sourceType? = true)
      (failed : VersionKeys.validity q = .error error) : q.IsAtFault rules error
  /-- It is published and has no code. -/
  | unnamed {v : Validity} (accepted : rules.acceptsSource q.sourceType? = true)
      (read : VersionKeys.validity q = .ok v) (published : rules.isDraft v.priority = false)
      (unnamed : q.publicCode = none) : q.IsAtFault rules (.missingField q.label "publicCode")

variable {rules : FlatteningRules} {zone : Zone} {quays : List Quay}

theorem QuayGroup.version?_eq_error_iff {placed : PlacedQuay} {error : FlatteningError} :
    version? rules placed = .error error ↔ placed.quay.IsAtFault rules error := by
  constructor
  · intro failed
    rw [version?] at failed
    split at failed
    next accepted =>
      rcases bind_eq_error_iff.mp failed with failed | ⟨v, read, failed⟩
      · exact .unreadable accepted failed
      · split at failed
        next => cases failed
        next notDraft =>
          split at failed
          next => cases failed
          next unnamed =>
            cases failed
            exact .unnamed accepted read (Bool.eq_false_iff.mpr notDraft) unnamed
    next => cases failed
  · intro atFault
    cases atFault with
    | unreadable accepted failed =>
      rw [version?, if_pos accepted, failed]
      rfl
    | unnamed accepted read published unnamed =>
      simp only [version?, accepted, read, published, unnamed, if_true, ok_bind]
      rfl

theorem Quay.isReadable_iff {q : Quay} :
    q.IsReadable rules ↔ ∀ error, ¬ q.IsAtFault rules error := by
  have readable : (∃ found, version? rules ⟨q, 0⟩ = .ok found) ↔ q.IsReadable rules :=
    exists_version?_eq_ok_iff
  have atFault (error : FlatteningError) :
      version? rules ⟨q, 0⟩ = .error error ↔ q.IsAtFault rules error :=
    version?_eq_error_iff
  simp only [← readable, ← atFault]
  cases version? rules ⟨q, 0⟩ with
  | ok found => simp
  | error error => simp

theorem Quay.IsAtFault.record? {q : Quay} {error : FlatteningError}
    (atFault : q.IsAtFault rules error) : error.record? = some q.label := by
  cases atFault with
  | unreadable _ failed => exact VersionKeys.record?_of_validity failed
  | unnamed _ _ _ _ => rfl

/-- Of several quays at fault the first one is reported. -/
theorem QuayGroup.versionsOf_eq_error_iff {error : FlatteningError} :
    versionsOf rules quays = .error error ↔ ∃ before q after, quays = before ++ q :: after ∧
      (∀ p ∈ before, p.IsReadable rules) ∧ q.IsAtFault rules error := by
  have unplaced : versionsOf rules quays = .error error ↔
      quays.mapM (fun q => version? rules ⟨q, 0⟩) = .error error := by
    rw [mapM_version?_unplaced, map_eq_error_iff, versionsOf, bind_eq_error_iff]
    refine or_iff_left ?_
    rintro ⟨_, -, returned⟩
    cases returned
  rw [unplaced, mapM_eq_error_iff]
  simp only [version?_eq_error_iff, exists_version?_eq_ok_iff]

/-! ## Codes -/

/-- A version holds on a day that it covers where no other version of its code ranks as high. -/
structure QuayGroup.HoldsOn (rules : FlatteningRules) (quays : List Quay) (code : PublicCode)
    (w : Version PlacedQuay) (d : Day) : Prop where
  version : IsVersionAt rules quays code w
  mem : d ∈ w.validity
  outranks : Outranks rules quays code w d

/-- A fragment of a version is a run of days on which the version holds. -/
structure QuayGroup.IsFragment (rules : FlatteningRules) (quays : List Quay) (code : PublicCode)
    (w f : Version PlacedQuay) : Prop where
  owner : f.owner = w.owner
  priority : f.validity.priority = w.validity.priority
  covers : f.validity.CoversSomeDay
  holds : ∀ d ∈ f.validity, HoldsOn rules quays code w d
  before : ∀ d : Day, d.number = f.validity.start.number - 1 → ¬ HoldsOn rules quays code w d
  after : ∀ d : Day, d.number = f.validity.last.number + 1 → ¬ HoldsOn rules quays code w d

/-- Two quays are versions of one code and share a day at one priority. -/
def QuayGroup.HasConflict (rules : FlatteningRules) (quays : List Quay) (code : PublicCode) :
    Prop :=
  ∃ v w, IsVersionAt rules quays code v ∧ IsVersionAt rules quays code w ∧
    v.owner.position ≠ w.owner.position ∧ v.Clashes w

/-- Clocks do not show the start of the first day of a validity, or the end of its last day if it
has one. -/
def Zone.Hides (zone : Zone) (v : Validity) : Prop :=
  zone.startOfDay? v.start = none ∨ ∃ last, v.end? = some last ∧ zone.endOfDay? last = none

theorem Zone.hides_iff {v : Validity} : zone.Hides v ↔ zone.rangeOf? v = none := by
  rw [Hides, rangeOf?]
  cases zone.startOfDay? v.start with
  | none => simp
  | some fromDate =>
    cases v.end? with
    | none => simp
    | some last =>
      simp only [reduceCtorEq, false_or, Option.some.injEq, exists_eq_left']
      cases zone.endOfDay? last <;> simp

/-- What is wrong with a code, where a conflict comes first. Of several fragments that clocks do not
show, the earliest is meant. -/
inductive QuayGroup.IsAtFault (rules : FlatteningRules) (zone : Zone) (quays : List Quay)
    (code : PublicCode) : FlatteningError → Prop
  | conflict {v w : Version PlacedQuay} (first : IsVersionAt rules quays code v)
      (second : IsVersionAt rules quays code w) (distinct : v.owner.position ≠ w.owner.position)
      (clash : v.Clashes w) : IsAtFault rules zone quays code
        (.samePriorityOverlap code.text v.validity w.validity)
  | hidden {w f : Version PlacedQuay} (noConflict : ¬ HasConflict rules quays code)
      (fragment : IsFragment rules quays code w f) (hidden : zone.Hides f.validity)
      (earliest : ∀ x g, IsFragment rules quays code x g →
        g.validity.start < f.validity.start → ¬ zone.Hides g.validity) :
      IsAtFault rules zone quays code
        (.nonexistentLocalTime w.owner.quay.label (zone.hiddenDay f.validity))

namespace QuayGroup

/-- The fault of a code, whichever it is. -/
def HasFault (rules : FlatteningRules) (zone : Zone) (quays : List Quay) (code : PublicCode) :
    Prop :=
  HasConflict rules quays code ∨ ∃ w f, IsFragment rules quays code w f ∧ zone.Hides f.validity

theorem IsAtFault.hasFault {code : PublicCode} {error : FlatteningError}
    (atFault : IsAtFault rules zone quays code error) : HasFault rules zone quays code := by
  cases atFault with
  | conflict first second distinct clash => exact .inl ⟨_, _, first, second, distinct, clash⟩
  | hidden _ fragment hidden _ => exact .inr ⟨_, _, fragment, hidden⟩

theorem HasFault.exists_version {code : PublicCode} (fault : HasFault rules zone quays code) :
    ∃ w, IsVersionAt rules quays code w := by
  rcases fault with ⟨v, w, first, -⟩ | ⟨w, f, fragment, -⟩
  · exact ⟨v, first⟩
  · exact ⟨w, (fragment.holds _ (Validity.mem_start fragment.covers)).version⟩

/-- A group with all versions of its code, in the order of their positions. -/
structure IsGroupOf (rules : FlatteningRules) (quays : List Quay) (group : QuayGroup) : Prop where
  mem_iff : ∀ w, w ∈ group.versions ↔ IsVersionAt rules quays group.publicCode w
  positions : group.versions.Pairwise fun v w => v.owner.position < w.owner.position

theorem isGroupOf_of_mem {versions : List (PublicCode × Version PlacedQuay)}
    (read : versionsOf rules quays = .ok versions) {group : QuayGroup}
    (member : group ∈ byPublicCode versions) : group.IsGroupOf rules quays where
  mem_iff w := (mem_versions_of_mem member).trans (mem_versionsOf read)
  positions := by
    rw [(mem_byPublicCode.mp member).2]
    exact List.pairwise_map.mpr ((pairwise_versionsOf read).filter _)

namespace IsGroupOf

variable {group : QuayGroup} (isGroup : group.IsGroupOf rules quays)
include isGroup

theorem clashFree_iff :
    ClashFree group.versions ↔ ¬ HasConflict rules quays group.publicCode := by
  constructor
  · rintro clashFree ⟨v, w, first, second, distinct, clash⟩
    exact clashFree.forall ((isGroup.mem_iff v).mpr first) ((isGroup.mem_iff w).mpr second)
      (fun same => distinct (congrArg (·.owner.position) same)) clash
  · intro noConflict
    refine isGroup.positions.imp_of_mem fun {v w} memberV memberW before clash => ?_
    exact noConflict ⟨v, w, (isGroup.mem_iff v).mp memberV, (isGroup.mem_iff w).mp memberW,
      Nat.ne_of_lt before, clash⟩

theorem wins_iff (clashFree : ClashFree group.versions) {w : Version PlacedQuay} {d : Day} :
    Wins group.versions w d ↔ HoldsOn rules quays group.publicCode w d := by
  constructor
  · intro wins
    refine ⟨(isGroup.mem_iff w).mp wins.member, wins.mem, fun other version distinct mem => ?_⟩
    exact wins.outranks clashFree ((isGroup.mem_iff other).mpr version) distinct mem
  · rintro ⟨version, mem, outranks⟩
    refine ⟨(isGroup.mem_iff w).mpr version, mem, fun other member memOther => ?_⟩
    by_cases same : other = w
    · exact same ▸ Int.le_refl _
    · exact Int.le_of_lt (outranks other ((isGroup.mem_iff other).mp member) same memOther)

theorem isRun_iff (clashFree : ClashFree group.versions) {w f : Version PlacedQuay} :
    IsRun group.versions w f ↔ IsFragment rules quays group.publicCode w f := by
  have same (d : Day) := isGroup.wins_iff clashFree (w := w) (d := d)
  constructor
  · intro run
    exact ⟨run.owner, run.priority, run.covers, fun d mem => (same d).mp (run.wins d mem),
      fun d number holds => run.before d number ((same d).mpr holds),
      fun d number holds => run.after d number ((same d).mpr holds)⟩
  · intro fragment
    exact ⟨fragment.owner, fragment.priority, fragment.covers,
      fun d mem => (same d).mpr (fragment.holds d mem),
      fun d number wins => fragment.before d number ((same d).mp wins),
      fun d number wins => fragment.after d number ((same d).mp wins)⟩

theorem mem_timeline_iff {timeline : Timeline PlacedQuay} (resolved : group.timeline = .ok timeline)
    {f : Version PlacedQuay} :
    f ∈ timeline ↔ ∃ w, IsFragment rules quays group.publicCode w f := by
  obtain ⟨clashFree, resolves⟩ := Timeline.flatten_eq_ok_iff.mp resolved
  rw [resolves.mem_iff clashFree]
  simp only [isGroup.isRun_iff clashFree]

/-- A group whose timeline fails has a conflict, and the error shows it. -/
theorem isAtFault_of_timeline {error : FlatteningError} (failed : group.timeline = .error error) :
    IsAtFault rules zone quays group.publicCode error := by
  obtain ⟨taken, next, later, v, split, -, member, clash, rfl⟩ := flatten_eq_error failed
  have perm := List.mergeSort_perm group.versions Version.precedes
  have distinct : (taken ++ next :: later).Pairwise
      fun v w => v.owner.position ≠ w.owner.position := by
    rw [← split]
    refine perm.symm.pairwise ?_ (fun distinct => distinct.symm)
    exact isGroup.positions.imp Nat.ne_of_lt
  have isVersion : ∀ w ∈ taken ++ next :: later,
      IsVersionAt rules quays group.publicCode w := by
    intro w memberW
    rw [← split] at memberW
    exact (isGroup.mem_iff w).mp (perm.mem_iff.mp memberW)
  exact .conflict (isVersion v (List.mem_append_left _ member))
    (isVersion next (List.mem_append_right _ List.mem_cons_self))
    ((List.pairwise_append.mp distinct).2.2 v member next List.mem_cons_self) clash

theorem exists_flatten_eq_ok_iff : (∃ part, group.flatten zone = .ok part) ↔
    ¬ HasFault rules zone quays group.publicCode := by
  simp only [HasFault, not_or, ← isGroup.clashFree_iff, not_exists, not_and]
  constructor
  · rintro ⟨part, flattened⟩
    obtain ⟨timeline, resolved, copied⟩ := bind_eq_ok_iff.mp flattened
    refine ⟨(Timeline.flatten_eq_ok_iff.mp resolved).1, fun w f fragment hidden => ?_⟩
    have member := (isGroup.mem_timeline_iff resolved).mpr ⟨w, fragment⟩
    obtain ⟨q, copied⟩ := exists_mapM_eq_ok_iff.mp ⟨part, copied⟩ f member
    obtain ⟨range, shown, -⟩ := Quay.withValidity_eq_ok_iff.mp copied
    exact absurd (shown.symm.trans (Zone.hides_iff.mp hidden)) (Option.some_ne_none range)
  · rintro ⟨clashFree, shown⟩
    rcases flatten_cases group.publicCode.text group.versions with
      ⟨timeline, resolved, -⟩ | ⟨-, -, clash⟩
    · have copied : ∃ part, (timeline.mapM fun f =>
          f.owner.quay.withValidity zone f.validity) = .ok part := by
        refine exists_mapM_eq_ok_iff.mpr fun f member => ?_
        obtain ⟨w, fragment⟩ := (isGroup.mem_timeline_iff resolved).mp member
        obtain ⟨range, found⟩ :=
          Option.ne_none_iff_exists'.mp (mt Zone.hides_iff.mpr (shown w f fragment))
        exact ⟨_, Quay.withValidity_eq_ok_iff.mpr ⟨range, found, rfl⟩⟩
      obtain ⟨part, copied⟩ := copied
      exact ⟨part, bind_eq_ok_iff.mpr ⟨timeline, resolved, copied⟩⟩
    · exact absurd clashFree clash

/-- A group whose timeline is there fails on its first fragment that clocks do not show. -/
theorem isAtFault_of_flatten {error : FlatteningError}
    (failed : group.flatten zone = .error error) :
    IsAtFault rules zone quays group.publicCode error := by
  rcases bind_eq_error_iff.mp failed with failed | ⟨timeline, resolved, failed⟩
  · exact isGroup.isAtFault_of_timeline failed
  · obtain ⟨clashFree, resolves⟩ := Timeline.flatten_eq_ok_iff.mp resolved
    obtain ⟨before, f, after, split, copied, failed⟩ := mapM_eq_error_iff.mp failed
    obtain ⟨hidden, rfl⟩ := Quay.withValidity_eq_error_iff.mp failed
    have flat := resolves.flat
    rw [split] at flat
    have member : f ∈ before ++ f :: after := List.mem_append_right _ List.mem_cons_self
    obtain ⟨w, fragment⟩ := (isGroup.mem_timeline_iff resolved).mp (split ▸ member)
    rw [fragment.owner]
    refine .hidden (isGroup.clashFree_iff.mp clashFree) fragment (Zone.hides_iff.mpr hidden) ?_
    intro x g other earlier hides
    have memberG := (isGroup.mem_timeline_iff resolved).mpr ⟨x, other⟩
    rw [split] at memberG
    cases List.mem_append.mp memberG with
    | inl memberG =>
      obtain ⟨q, copied⟩ := copied g memberG
      obtain ⟨range, shown, -⟩ := Quay.withValidity_eq_ok_iff.mp copied
      exact absurd (shown.symm.trans (Zone.hides_iff.mp hides)) (Option.some_ne_none range)
    | inr memberG =>
      rcases List.mem_cons.mp memberG with rfl | memberG
      · exact Int.lt_irrefl _ earlier
      · -- What comes after a fragment starts after its last day.
        have later := (List.pairwise_cons.mp (List.pairwise_append.mp flat.ordered).2.1).1 g memberG
        exact Int.lt_irrefl _ (Int.lt_trans earlier (Int.lt_of_le_of_lt fragment.covers later))

end IsGroupOf

/-- A code is without fault if its group can be flattened or is not there at all. -/
theorem not_hasFault {versions : List (PublicCode × Version PlacedQuay)}
    (read : versionsOf rules quays = .ok versions) {code : PublicCode}
    (flattened : ∀ group ∈ byPublicCode versions, group.publicCode = code →
      ∃ part, group.flatten zone = .ok part) : ¬ HasFault rules zone quays code := by
  intro fault
  obtain ⟨w, version⟩ := fault.exists_version
  obtain ⟨group, member, rfl, -⟩ := exists_group_of_mem ((mem_versionsOf read).mpr version)
  have isGroup := isGroupOf_of_mem read member
  exact isGroup.exists_flatten_eq_ok_iff.mp (flattened group member rfl) fault

/-- Of several codes at fault the lowest one is reported. -/
theorem isAtFault_of_mapM_flatten {versions : List (PublicCode × Version PlacedQuay)}
    (read : versionsOf rules quays = .ok versions) {error : FlatteningError}
    (failed : (byPublicCode versions).mapM (flatten zone) = .error error) :
    ∃ code, IsAtFault rules zone quays code error ∧
      ∀ lower, lower < code → ¬ HasFault rules zone quays lower := by
  obtain ⟨before, group, after, split, flattened, failed⟩ := mapM_eq_error_iff.mp failed
  have member : group ∈ byPublicCode versions :=
    split ▸ List.mem_append_right _ List.mem_cons_self
  refine ⟨group.publicCode, (isGroupOf_of_mem read member).isAtFault_of_flatten failed,
    fun lower below => not_hasFault read fun other memberOther same => ?_⟩
  have ordered := pairwise_byPublicCode versions
  rw [split] at ordered memberOther
  -- The group of a lower code comes before this one, where no group failed.
  cases List.mem_append.mp memberOther with
  | inl memberOther => exact flattened other memberOther
  | inr memberOther =>
    rcases List.mem_cons.mp memberOther with rfl | memberOther
    · exact absurd (same ▸ below) (Identifier.lt_irrefl _)
    · have later := (List.pairwise_append.mp ordered).2.1
      have above := (List.pairwise_cons.mp later).1 other memberOther
      exact absurd (Identifier.lt_trans (same ▸ above) below) (Identifier.lt_irrefl _)

end QuayGroup

/-! ## Stop places -/

namespace StopPlace

variable {place : StopPlace}

theorem isAtFault_of_flatten {error : FlatteningError}
    (failed : place.flatten rules zone = .error error) :
    (∃ before q after, place.quays = before ++ q :: after ∧
      (∀ p ∈ before, ∀ e, ¬ p.IsAtFault rules e) ∧ q.IsAtFault rules error) ∨
    (∀ q ∈ place.quays, ∀ e, ¬ q.IsAtFault rules e) ∧
      ∃ code, QuayGroup.IsAtFault rules zone place.quays code error ∧
        ∀ lower, lower < code → ¬ HasFault rules zone place.quays lower := by
  rw [StopPlace.flatten] at failed
  split at failed
  next =>
    rcases bind_eq_error_iff.mp failed with failed | ⟨groups, grouped, failed⟩
    · obtain ⟨before, q, after, split, readable, atFault⟩ :=
        versionsOf_eq_error_iff.mp (map_eq_error_iff.mp failed)
      exact .inl ⟨before, q, after, split,
        fun p member => Quay.isReadable_iff.mp (readable p member), atFault⟩
    · obtain ⟨versions, read, rfl⟩ := map_eq_ok_iff.mp grouped
      rcases bind_eq_error_iff.mp failed with failed | ⟨parts, -, returned⟩
      · refine .inr ⟨fun q member => ?_, isAtFault_of_mapM_flatten read failed⟩
        exact Quay.isReadable_iff.mp (exists_versionsOf_eq_ok_iff.mp ⟨versions, read⟩ q member)
      · cases returned
  next => cases failed

theorem flatten_eq_error_iff
    (accepted : ∃ q ∈ place.quays, rules.acceptsSource q.sourceType? = true) :
    (∃ error, place.flatten rules zone = .error error) ↔
      (∃ q ∈ place.quays, ∃ error, q.IsAtFault rules error) ∨
        ∃ code, HasFault rules zone place.quays code := by
  constructor
  · rintro ⟨error, failed⟩
    rcases isAtFault_of_flatten failed with
      ⟨before, q, after, split, -, atFault⟩ | ⟨-, code, atFault, -⟩
    · exact .inl ⟨q, split ▸ List.mem_append_right _ List.mem_cons_self, error, atFault⟩
    · exact .inr ⟨code, atFault.hasFault⟩
  · intro fault
    cases flattened : place.flatten rules zone with
    | error error => exact ⟨error, rfl⟩
    | ok result =>
      rw [StopPlace.flatten, if_pos (List.any_eq_true.mpr accepted)] at flattened
      obtain ⟨groups, grouped, flattened⟩ := bind_eq_ok_iff.mp flattened
      obtain ⟨versions, read, rfl⟩ := map_eq_ok_iff.mp grouped
      obtain ⟨parts, taken, -⟩ := bind_eq_ok_iff.mp flattened
      rcases fault with ⟨q, member, error, atFault⟩ | ⟨code, fault⟩
      · have readable := exists_versionsOf_eq_ok_iff.mp ⟨versions, read⟩ q member
        exact absurd atFault (Quay.isReadable_iff.mp readable error)
      · refine absurd fault (not_hasFault read fun group member _ => ?_)
        exact exists_mapM_eq_ok_iff.mp ⟨parts, taken⟩ group member

/-- A stop place with quays to flatten is not flattened just when a quay or a code of it is at
fault. The first quay at fault is reported, or else the lowest code at fault, by its conflict if it
has one. -/
theorem flatten_eq_error_cases (rules : FlatteningRules) (zone : Zone) (place : StopPlace) :
    ((∃ error, place.flatten rules zone = .error error) ↔
      (∃ q ∈ place.quays, rules.acceptsSource q.sourceType? = true) ∧
        ((∃ q ∈ place.quays, rules.acceptsSource q.sourceType? = true ∧
            ∃ error, VersionKeys.validity q = .error error) ∨
          (∃ q ∈ place.quays, rules.acceptsSource q.sourceType? = true ∧
            ∃ v, VersionKeys.validity q = .ok v ∧ rules.isDraft v.priority = false ∧
              q.publicCode = none) ∨
          (∃ code, HasConflict rules place.quays code) ∨
          ∃ code w f, IsFragment rules place.quays code w f ∧ zone.Hides f.validity)) ∧
    ∀ error, place.flatten rules zone = .error error →
      ((∃ before q after, place.quays = before ++ q :: after ∧
          (∀ p ∈ before, ∀ e, ¬ p.IsAtFault rules e) ∧ q.IsAtFault rules error) ∨
        (∀ q ∈ place.quays, ∀ e, ¬ q.IsAtFault rules e) ∧
          ∃ code, QuayGroup.IsAtFault rules zone place.quays code error ∧
            ∀ lower, lower < code → ¬ HasFault rules zone place.quays lower) ∧
      ∀ code existing incoming, error ≠ .unreachableSplice code existing incoming := by
  refine ⟨⟨?_, ?_⟩, fun error failed => ⟨isAtFault_of_flatten failed, ?_⟩⟩
  · rintro ⟨error, failed⟩
    have accepted : ∃ q ∈ place.quays, rules.acceptsSource q.sourceType? = true := by
      by_contra none
      rw [flatten_of_not_accepted (mt List.any_eq_true.mp none)] at failed
      cases failed
    refine ⟨accepted, ?_⟩
    rcases (flatten_eq_error_iff accepted).mp ⟨error, failed⟩ with
      ⟨q, member, error, atFault⟩ | ⟨code, conflict | hidden⟩
    · cases atFault with
      | unreadable accepts failed => exact .inl ⟨q, member, accepts, error, failed⟩
      | unnamed accepts read published unnamed =>
        exact .inr (.inl ⟨q, member, accepts, _, read, published, unnamed⟩)
    · exact .inr (.inr (.inl ⟨code, conflict⟩))
    · exact .inr (.inr (.inr ⟨code, hidden⟩))
  · rintro ⟨accepted, fault⟩
    refine (flatten_eq_error_iff accepted).mpr ?_
    rcases fault with ⟨q, member, accepts, error, failed⟩ |
      ⟨q, member, accepts, v, read, published, unnamed⟩ | ⟨code, conflict⟩ | ⟨code, hidden⟩
    · exact .inl ⟨q, member, error, .unreadable accepts failed⟩
    · exact .inl ⟨q, member, _, .unnamed accepts read published unnamed⟩
    · exact .inr ⟨code, .inl conflict⟩
    · exact .inr ⟨code, .inr hidden⟩
  · rintro code existing incoming rfl
    rcases isAtFault_of_flatten failed with ⟨-, q, -, -, -, atFault⟩ | ⟨-, code, atFault, -⟩
    · -- The error of a quay names the quay, which this one does not.
      cases atFault.record?
    · cases atFault

end StopPlace

end QuayTimeline
