import QuayTimeline.Proofs.Flattening.Fragments

/-! # A flattened stop place by code and day

Five steps lie between the quays of a stop place and what replaces them: some are left out, the
others are read, grouped by position, resolved, and copied. In the end a code is covered on the days
on which some version of it was, and what holds on a day is a copy of the version that ranks highest
there. -/

namespace QuayTimeline

open Timeline QuayGroup

/-- One quay stands before another: under a lower code, or under the same code and earlier. -/
def Quay.StandsBefore (q r : Quay) : Prop :=
  ∃ code other v w, q.publicCode = some code ∧ r.publicCode = some other ∧
    VersionKeys.validity q = .ok v ∧ VersionKeys.validity r = .ok w ∧
    (code < other ∨ code = other ∧ v.last < w.start)

/-- A quay is a copy of another one with a priority: the same but for its identity and its
validity. -/
structure Quay.IsCopyOf (q p : Quay) (priority : Priority) : Prop where
  name : q.name = p.name
  publicCode : q.publicCode = p.publicCode
  privateCode : q.privateCode = p.privateCode
  others : q.others = p.others
  keyValues : ∀ key, key ≠ VersionKeys.priority → key ≠ VersionKeys.start →
    key ≠ VersionKeys.last → q.keyValues.get? key = p.keyValues.get? key
  priority : q.keyValues.get? VersionKeys.priority = some [toString priority]
  netexId : q.netexId = none
  version : q.version = 0

theorem Quay.isCopyOf_copyFor (p : Quay) (v : Validity) (range : ValidBetween) :
    (p.copyFor v range).IsCopyOf p v.priority where
  name := rfl
  publicCode := rfl
  privateCode := rfl
  others := rfl
  keyValues key notPriority notStart notLast := by
    change (keyValuesWith p.keyValues v).get? key = _
    rw [get?_keyValuesWith, if_neg notLast, if_neg notStart, if_neg notPriority]
  priority := by
    change (keyValuesWith p.keyValues v).get? _ = _
    rw [get?_keyValuesWith, if_neg (by decide), if_neg (by decide), if_pos rfl]
  netexId := rfl
  version := rfl

/-- A quay is the copy of a version among the quays of a stop place, and on each day of the copy
that version ranks above all others of its code. -/
structure Quay.IsTakenFrom (rules : FlatteningRules) (quays : List Quay) (q : Quay)
    (code : PublicCode) (v : Validity) (w : Version PlacedQuay) : Prop where
  version : q.IsVersion rules code v
  covers : v.CoversSomeDay
  original : QuayGroup.IsVersionAt rules quays code w
  copy : q.IsCopyOf w.owner.quay w.validity.priority
  highest : ∀ d ∈ v, d ∈ w.validity ∧ Outranks rules quays code w d

theorem exists_isTakenFrom {rules : FlatteningRules} {quays : List Quay}
    {fragments : List (PublicCode × Version PlacedQuay)}
    (resolved : fragmentsOf rules quays = .ok fragments)
    {e : PublicCode × Version PlacedQuay} (member : e ∈ fragments) {zone : Zone} {q : Quay}
    (copied : copyOf zone e = .ok q) :
    ∃ w, q.IsTakenFrom rules quays e.1 e.2.validity w ∧ w.owner.quay = e.2.owner.quay := by
  have covers := (inOrder_fragmentsOf resolved).covers e member
  obtain ⟨w, original, -, owner, priority, -⟩ :=
    exists_version_of_mem resolved member (Validity.mem_start covers)
  refine ⟨w, ⟨isVersion_of_copyOf resolved member copied, covers, original, ?_, ?_⟩, by rw [owner]⟩
  · obtain ⟨range, -, rfl⟩ := Quay.withValidity_eq_ok_iff.mp copied
    rw [← priority, ← owner]
    exact Quay.isCopyOf_copyFor _ _ _
  · intro d mem
    obtain ⟨other, originalThere, memOther, ownerThere, -, outranks⟩ :=
      exists_version_of_mem resolved member mem
    -- On every day it is the same version, as a quay is one version only.
    have sameOwner := ownerThere.symm.trans owner
    have version := originalThere.version
    rw [sameOwner] at version
    obtain rfl : other = w := Version.ext sameOwner (version.unique original.version).2
    exact ⟨memOther, outranks⟩

/-- Flattening touches nothing but the quays. They come in the order of code and time, cover just
the days that some version of their code covers, and each is a copy of the version of highest
priority on its days. -/
theorem StopPlace.flatten_by_code_and_day {rules : FlatteningRules} {zone : Zone}
    {place result : StopPlace}
    (accepted : ∃ q ∈ place.quays, rules.acceptsSource q.sourceType? = true)
    (flattened : place.flatten rules zone = .ok result) :
    { result with quays := place.quays } = place ∧
    (∀ q ∈ result.quays, ∃ code v, q.IsVersion rules code v ∧ v.CoversSomeDay) ∧
    result.quays.Pairwise Quay.StandsBefore ∧
    ∀ code d,
      ((∃ q ∈ result.quays, ∃ v, q.IsVersion rules code v ∧ d ∈ v) ↔
        ∃ p ∈ place.quays, ∃ w, p.IsVersion rules code w ∧ d ∈ w) ∧
      ∀ q ∈ result.quays, ∀ v, q.IsVersion rules code v → d ∈ v →
        ∃ (i : Nat) (p : Quay) (w : Validity), place.quays[i]? = some p ∧
          p.IsVersion rules code w ∧ d ∈ w ∧ q.IsCopyOf p w.priority ∧
          ∀ (j : Nat) (other : Quay) (x : Validity), j ≠ i → place.quays[j]? = some other →
            other.IsVersion rules code x → d ∈ x → x.priority < w.priority := by
  obtain ⟨fragments, quays, resolved, copied, rfl⟩ :=
    (flatten_eq_ok_iff (List.any_eq_true.mpr accepted)).mp flattened
  have isVersion {e : PublicCode × Version PlacedQuay} (member : e ∈ fragments) {q : Quay}
      (copied : copyOf zone e = .ok q) : q.IsVersion rules e.1 e.2.validity :=
    isVersion_of_copyOf resolved member copied
  refine ⟨rfl, fun q member => ?_, ?_, fun code d => ⟨⟨?_, ?_⟩, fun q member v version mem => ?_⟩⟩
  · obtain ⟨e, memberE, copiedE⟩ := (mem_of_mapM_eq_ok copied).mp member
    exact ⟨e.1, e.2.validity, isVersion memberE copiedE,
      (inOrder_fragmentsOf resolved).covers e memberE⟩
  · refine pairwise_of_forall₂ (forall₂_isVersion resolved copied) ?_
      (inOrder_fragmentsOf resolved).ordered
    intro e f q r ⟨_, first⟩ ⟨_, second⟩ before
    exact ⟨e.1, f.1, e.2.validity, f.2.validity, first.publicCode, second.publicCode,
      first.validity, second.validity, before⟩
  · rintro ⟨q, member, v, version, mem⟩
    obtain ⟨e, memberE, copiedE⟩ := (mem_of_mapM_eq_ok copied).mp member
    obtain ⟨rfl, rfl⟩ := version.unique (isVersion memberE copiedE)
    obtain ⟨w, original, memW, -⟩ := exists_version_of_mem resolved memberE mem
    exact ⟨w.owner.quay, List.mem_of_getElem? original.placed, w.validity, original.version, memW⟩
  · rintro ⟨p, member, w, version, mem⟩
    obtain ⟨i, placed⟩ := List.mem_iff_getElem?.mp member
    obtain ⟨f, memberF, memF⟩ :=
      exists_fragment_of_version (w := ⟨⟨p, i⟩, w⟩) resolved ⟨placed, version⟩ mem
    obtain ⟨q, copiedF⟩ := exists_mapM_eq_ok_iff.mp ⟨quays, copied⟩ _ memberF
    exact ⟨q, (mem_of_mapM_eq_ok copied).mpr ⟨_, memberF, copiedF⟩, f.validity,
      isVersion memberF copiedF, memF⟩
  · obtain ⟨e, memberE, copiedE⟩ := (mem_of_mapM_eq_ok copied).mp member
    obtain ⟨rfl, rfl⟩ := version.unique (isVersion memberE copiedE)
    obtain ⟨w, original, memW, owner, priority, outranks⟩ :=
      exists_version_of_mem resolved memberE mem
    obtain ⟨range, -, rfl⟩ := Quay.withValidity_eq_ok_iff.mp copiedE
    refine ⟨w.owner.position, w.owner.quay, w.validity, original.placed, original.version, memW,
      ?_, ?_⟩
    · rw [← priority, ← owner]
      exact Quay.isCopyOf_copyFor _ _ _
    · intro j other x distinct placed version memX
      refine outranks ⟨⟨other, j⟩, x⟩ ⟨placed, version⟩ (fun same => distinct ?_) memX
      exact congrArg (·.owner.position) same

/-- A quay of one register with a code, a priority and a first day. -/
def registeredQuay (name priority start : String) : Quay :=
  { Quay.blank with
    name := some name
    publicCode := some ⟨"H1", by decide⟩
    privateCode := some ⟨"HSL/JORE-4", name⟩
    keyValues := .ofList [(VersionKeys.priority, [priority]), (VersionKeys.start, [start])] }

/-- A stop place with a later version on top of an earlier one, and a draft. -/
def twoVersions : StopPlace :=
  { StopPlace.blank with quays := [registeredQuay "new" "20" "2024-03-01",
      registeredQuay "draft" "30" "2024-06-01", registeredQuay "old" "10" "2024-01-01"] }

theorem StopPlace.exists_copies_twoVersions : ∃ fragments quays,
    fragmentsOf .default twoVersions.quays = .ok fragments ∧
      fragments.mapM (copyOf (.fixed (.east 0))) = .ok quays ∧ quays.length = 2 := by
  obtain ⟨fragments, resolved, shown, length⟩ : ∃ fragments,
      fragmentsOf .default twoVersions.quays = .ok fragments ∧
      (∀ e ∈ fragments, ((Zone.fixed (.east 0)).rangeOf? e.2.validity).isSome = true) ∧
      fragments.length = 2 := by
    refine ⟨_, by cbv, ?_, rfl⟩
    decide
  obtain ⟨quays, copied⟩ : ∃ quays, fragments.mapM (copyOf (.fixed (.east 0))) = .ok quays := by
    refine exists_mapM_eq_ok_iff.mpr fun e member => ?_
    obtain ⟨range, found⟩ := Option.isSome_iff_exists.mp (shown e member)
    exact ⟨_, Quay.withValidity_eq_ok_iff.mpr ⟨range, found, rfl⟩⟩
  exact ⟨fragments, quays, resolved, copied, (mapM_eq_ok_iff.mp copied).length_eq.symm.trans length⟩

theorem StopPlace.exists_flatten_twoVersions : ∃ result,
    twoVersions.flatten .default (.fixed (.east 0)) = .ok result ∧ result.quays.length = 2 := by
  obtain ⟨fragments, quays, resolved, copied, length⟩ := exists_copies_twoVersions
  have flattened : twoVersions.flatten .default (.fixed (.east 0)) =
      .ok { twoVersions with quays } :=
    (flatten_eq_ok_iff (by decide)).mpr ⟨_, _, resolved, copied, rfl⟩
  exact ⟨_, flattened, length⟩

/-- Two versions of one quay that share days and a priority. -/
def clashingVersions : StopPlace :=
  { StopPlace.blank with quays := [registeredQuay "one" "10" "2024-01-01",
      registeredQuay "other" "10" "2024-02-01"] }

theorem StopPlace.exists_flatten_clashingVersions : ∃ error,
    clashingVersions.flatten .default (.fixed (.east 0)) = .error error := by
  have fails : (clashingVersions.flatten .default (.fixed (.east 0))).isOk = false := by cbv
  cases returned : clashingVersions.flatten .default (.fixed (.east 0)) with
  | ok place =>
    rw [returned] at fails
    cases fails
  | error error => exact ⟨error, rfl⟩

theorem StopPlace.flatten_by_code_and_day_twoVersions :
    (∃ q ∈ twoVersions.quays, FlatteningRules.default.acceptsSource q.sourceType? = true) ∧
    ∃ result, twoVersions.flatten .default (.fixed (.east 0)) = .ok result ∧
      result.quays.length = 2 ∧ result.quays.Pairwise Quay.StandsBefore := by
  have accepted : ∃ q ∈ twoVersions.quays,
      FlatteningRules.default.acceptsSource q.sourceType? = true :=
    ⟨_, List.mem_cons_self, by decide⟩
  obtain ⟨result, flattened, length⟩ := exists_flatten_twoVersions
  exact ⟨accepted, result, flattened, length, (flatten_by_code_and_day accepted flattened).2.2.1⟩

end QuayTimeline
