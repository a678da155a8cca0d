import QuayTimeline.Proofs.Flattening.ByDay
import QuayTimeline.Proofs.Flattening.Positions

/-! # One public code at a time

Flattening a stop place is flattening the quays of each public code on their own, in the order of
the codes. A code whose quays are all drafts leaves no quays, but faults among its drafts count. -/

namespace QuayTimeline

variable {rules : FlatteningRules} {zone : Zone}

/-- The stop place with no other quays than the imported ones of a public code. -/
def StopPlace.reducedTo (place : StopPlace) (rules : FlatteningRules) (code : PublicCode) :
    StopPlace :=
  { place with quays := (rules.imported place.quays).filter (·.publicCode = some code) }

/-- The public codes of the imported quays of a stop place, in their order. -/
def StopPlace.publicCodes (place : StopPlace) (rules : FlatteningRules) : List PublicCode :=
  Identifier.distinct ((rules.imported place.quays).filterMap (·.publicCode))

theorem StopPlace.mem_publicCodes {place : StopPlace} {code : PublicCode} :
    code ∈ place.publicCodes rules ↔
      ∃ q ∈ place.quays, rules.acceptsSource q.sourceType? = true ∧ q.publicCode = some code := by
  rw [publicCodes, Identifier.mem_distinct, List.mem_filterMap]
  simp only [FlatteningRules.mem_imported, and_assoc]

theorem flatten_mapM_cons {ε α β : Type} (step : α → Except ε (List β)) (item : α)
    (rest : List α) :
    List.flatten <$> (item :: rest).mapM step = do
      let first ← step item
      let others ← List.flatten <$> rest.mapM step
      return first ++ others := by
  rw [List.mapM_cons]
  cases step item with
  | error error => rfl
  | ok first => cases rest.mapM step <;> rfl

/-- Items whose step finds nothing may be left out. -/
theorem flatten_mapM_filter {ε α β : Type} {step : α → Except ε (List β)} {keep : α → Bool}
    {items : List α} (nothing : ∀ item ∈ items, keep item = false → step item = .ok []) :
    List.flatten <$> (items.filter keep).mapM step = List.flatten <$> items.mapM step := by
  induction items with
  | nil => rfl
  | cons item rest ih =>
    obtain ⟨first, others⟩ := List.forall_mem_cons.mp nothing
    cases kept : keep item with
    | true => rw [List.filter_cons_of_pos kept, flatten_mapM_cons, flatten_mapM_cons, ih others]
    | false =>
      have leftOut : ¬ keep item = true := Bool.eq_false_iff.mp kept
      rw [List.filter_cons_of_neg leftOut, flatten_mapM_cons, first kept, ok_bind, ih others]
      cases rest.mapM step <;> rfl

namespace QuayGroup

/-- The versions of a code are those among its quays. -/
theorem unplacedVersionsOf_filter {quays : List Quay}
    {versions : List (PublicCode × Version PlacedQuay)}
    (read : unplacedVersionsOf rules quays = .ok versions) (code : PublicCode) :
    unplacedVersionsOf rules (quays.filter (·.publicCode = some code)) =
      .ok (versions.filter (·.1 = code)) := by
  induction quays generalizing versions with
  | nil =>
    cases read
    rfl
  | cons q quays ih =>
    rw [unplacedVersionsOf_cons] at read
    obtain ⟨found, first, read⟩ := bind_eq_ok_iff.mp read
    obtain ⟨rest, readRest, ⟨rfl⟩⟩ := bind_eq_ok_iff.mp read
    rw [List.filter_append]
    -- What is read from a quay bears the code of that quay.
    have named : ∀ e ∈ found, q.publicCode = some e.1 := by
      rintro ⟨other, w⟩ rfl
      exact (version?_eq_ok_some_iff.mp first).1.publicCode
    rw [List.filter_cons]
    by_cases same : q.publicCode = some code
    · rw [if_pos (decide_eq_true same), unplacedVersionsOf_cons, first, ok_bind, ih readRest,
        ok_bind]
      refine congrArg (fun kept => Except.ok (kept ++ _)) (List.filter_eq_self.mpr ?_).symm
      intro e member
      have code : some e.1 = some code := (named e (Option.mem_toList.mp member)).symm.trans same
      exact decide_eq_true (Option.some.inj code)
    · have leftOut : found.toList.filter (·.1 = code) = [] := by
        refine List.filter_eq_nil_iff.mpr fun e member kept => same ?_
        rw [named e (Option.mem_toList.mp member), of_decide_eq_true kept]
      rw [if_neg (by simpa using same), ih readRest, leftOut, List.nil_append]

theorem exists_unplacedVersionsOf_eq_ok_iff {quays : List Quay} :
    (∃ versions, unplacedVersionsOf rules quays = .ok versions) ↔
      ∀ q ∈ quays, q.IsReadable rules := by
  rw [unplacedVersionsOf_eq, ← exists_versionsOf_eq_ok_iff]
  simp only [map_eq_ok_iff]
  exact ⟨fun ⟨_, versions, read, _⟩ => ⟨versions, read⟩, fun ⟨_, read⟩ => ⟨_, _, read, rfl⟩⟩

theorem flatten_nil (zone : Zone) (code : PublicCode) : flatten zone ⟨code, []⟩ = .ok [] := by
  rw [flatten, timeline, Timeline.flatten, List.mergeSort_nil]
  rfl

/-- The versions of one code make one group, or none. -/
theorem flattenVersions_filter (zone : Zone) (versions : List (PublicCode × Version PlacedQuay))
    (code : PublicCode) :
    flattenVersions zone (versions.filter (·.1 = code)) =
      flatten zone ⟨code, (versions.filter (·.1 = code)).map (·.2)⟩ := by
  cases found : versions.filter (·.1 = code) with
  | nil => exact (flatten_nil zone code).symm
  | cons first rest =>
    rw [← found]
    have single : Identifier.distinct ((versions.filter (·.1 = code)).map (·.1)) = [code] := by
      refine Identifier.eq_of_mem_iff (Identifier.pairwise_distinct _)
        (List.pairwise_singleton _ _) fun other => ?_
      rw [Identifier.mem_distinct, List.mem_singleton, List.mem_map]
      constructor
      · rintro ⟨e, member, rfl⟩
        exact of_decide_eq_true (List.mem_filter.mp member).2
      · rintro rfl
        have member : first ∈ versions.filter (·.1 = other) := found ▸ List.mem_cons_self
        exact ⟨first, member, of_decide_eq_true (List.mem_filter.mp member).2⟩
    simp only [flattenVersions, byPublicCode, single, List.map_singleton, List.filter_filter,
      Bool.and_self]
    rw [flatten_mapM_cons]
    cases flatten zone ⟨code, (versions.filter (·.1 = code)).map (·.2)⟩ with
    | error error => rfl
    | ok quays => exact congrArg Except.ok (List.append_nil quays)

/-- Versions are replaced code by code, also where a code has no versions. -/
theorem flattenVersions_eq (zone : Zone) {versions : List (PublicCode × Version PlacedQuay)}
    {codes : List PublicCode} (sorted : codes.Pairwise (· < ·))
    (complete : ∀ e ∈ versions, e.1 ∈ codes) :
    flattenVersions zone versions = List.flatten <$>
      codes.mapM fun code => flattenVersions zone (versions.filter (·.1 = code)) := by
  have present : Identifier.distinct (versions.map (·.1)) =
      codes.filter (· ∈ versions.map (·.1)) := by
    refine Identifier.eq_of_mem_iff (Identifier.pairwise_distinct _) (sorted.filter _) ?_
    intro code
    rw [Identifier.mem_distinct, List.mem_filter, decide_eq_true_iff, and_iff_right_of_imp]
    intro member
    obtain ⟨e, memberE, rfl⟩ := List.mem_map.mp member
    exact complete e memberE
  simp only [flattenVersions_filter]
  rw [flattenVersions, byPublicCode, List.mapM_map, present]
  refine flatten_mapM_filter fun code _ absent => ?_
  -- A code without versions makes an empty group.
  have none : versions.filter (·.1 = code) = [] := by
    refine List.filter_eq_nil_iff.mpr fun e member same => of_decide_eq_false absent ?_
    exact List.mem_map.mpr ⟨e, member, of_decide_eq_true same⟩
  rw [Function.comp_apply, none]
  exact flatten_nil zone code

end QuayGroup

open QuayGroup

namespace StopPlace

variable {place result : StopPlace}

theorem mem_reducedTo {code : PublicCode} {q : Quay} :
    q ∈ (place.reducedTo rules code).quays ↔ q ∈ place.quays ∧
      rules.acceptsSource q.sourceType? = true ∧ q.publicCode = some code := by
  rw [reducedTo, List.mem_filter, FlatteningRules.mem_imported, decide_eq_true_iff, and_assoc]

theorem pairwise_publicCodes : (place.publicCodes rules).Pairwise (· < ·) :=
  Identifier.pairwise_distinct _

theorem exists_accepted_reducedTo {code : PublicCode} (member : code ∈ place.publicCodes rules) :
    ∃ q ∈ (place.reducedTo rules code).quays, rules.acceptsSource q.sourceType? = true := by
  obtain ⟨q, memberQ, accepts, named⟩ := mem_publicCodes.mp member
  exact ⟨q, mem_reducedTo.mpr ⟨memberQ, accepts, named⟩, accepts⟩

variable {versions : List (PublicCode × Version PlacedQuay)}

theorem mem_publicCodes_of_mem
    (read : unplacedVersionsOf rules (rules.imported place.quays) = .ok versions)
    {e : PublicCode × Version PlacedQuay} (member : e ∈ versions) :
    e.1 ∈ place.publicCodes rules := by
  rw [unplacedVersionsOf_imported, unplacedVersionsOf_eq] at read
  obtain ⟨placed, readPlaced, rfl⟩ := map_eq_ok_iff.mp read
  obtain ⟨⟨code, w⟩, memberW, rfl⟩ := List.mem_map.mp member
  have version := (mem_versionsOf readPlaced).mp memberW
  exact mem_publicCodes.mpr ⟨_, List.mem_of_getElem? version.placed, version.version.accepted,
    version.version.publicCode⟩

/-- Once all versions are read, the codes are flattened one after another. -/
theorem flatten_eq_mapM_reducedTo
    (accepted : ∃ q ∈ place.quays, rules.acceptsSource q.sourceType? = true)
    (read : unplacedVersionsOf rules (rules.imported place.quays) = .ok versions) :
    place.flatten rules zone =
      (fun parts : List StopPlace => { place with quays := (parts.map (·.quays)).flatten }) <$>
        (place.publicCodes rules).mapM fun code =>
          (place.reducedTo rules code).flatten rules zone := by
  have each : ∀ code ∈ place.publicCodes rules, (place.reducedTo rules code).flatten rules zone =
      (fun quays => { place with quays }) <$>
        flattenVersions zone (versions.filter (·.1 = code)) := by
    intro code member
    rw [StopPlace.flatten_eq (exists_accepted_reducedTo member), unplacedVersionsOf_imported,
      reducedTo, unplacedVersionsOf_filter read, ok_bind]
  rw [StopPlace.flatten_eq accepted, read, ok_bind, flattenVersions_eq zone pairwise_publicCodes
    fun e member => mem_publicCodes_of_mem read member, mapM_congr each, mapM_map_right]
  cases (place.publicCodes rules).mapM fun code =>
      flattenVersions zone (versions.filter (·.1 = code)) with
  | error error => rfl
  | ok parts =>
    have quays : (parts.map fun quays => { place with quays }).map (·.quays) = parts := by
      rw [List.map_map]
      exact List.map_id parts
    exact congrArg (fun parts : List (List Quay) => Except.ok { place with quays := parts.flatten })
      quays.symm

/-- A stop place whose imported quays all have a code is read when the quays of each code are. -/
theorem exists_versions_of_reducedTo
    (named : ∀ q ∈ place.quays, rules.acceptsSource q.sourceType? = true →
      ∃ code, q.publicCode = some code)
    (flattened : ∀ code ∈ place.publicCodes rules, ∃ part,
      (place.reducedTo rules code).flatten rules zone = .ok part) :
    ∃ versions, unplacedVersionsOf rules (rules.imported place.quays) = .ok versions := by
  refine exists_unplacedVersionsOf_eq_ok_iff.mpr fun q member => ?_
  obtain ⟨memberQ, accepts⟩ := FlatteningRules.mem_imported.mp member
  obtain ⟨code, named⟩ := named q memberQ accepts
  have memberCode := mem_publicCodes.mpr ⟨q, memberQ, accepts, named⟩
  obtain ⟨part, flattened⟩ := flattened code memberCode
  obtain ⟨versions, quays, read, -, -⟩ :=
    (flatten_eq_ok_iff_flattenVersions (exists_accepted_reducedTo memberCode)).mp flattened
  rw [unplacedVersionsOf_imported] at read
  exact exists_unplacedVersionsOf_eq_ok_iff.mp ⟨versions, read⟩ q
    (mem_reducedTo.mpr ⟨memberQ, accepts, named⟩)

/-- A stop place whose imported quays all have a code is flattened just when the quays of each code
are, each code on its own. The quays come code by code, just as they come from each code. -/
theorem flatten_code_by_code (zone : Zone)
    (accepted : ∃ q ∈ place.quays, rules.acceptsSource q.sourceType? = true)
    (named : ∀ q ∈ place.quays, rules.acceptsSource q.sourceType? = true →
      ∃ code, q.publicCode = some code) :
    (∀ code, code ∈ place.publicCodes rules ↔
      ∃ q ∈ place.quays, rules.acceptsSource q.sourceType? = true ∧ q.publicCode = some code) ∧
    (place.publicCodes rules).Pairwise (· < ·) ∧
    ((∃ result, place.flatten rules zone = .ok result) ↔ ∀ code ∈ place.publicCodes rules,
      ∃ part, (place.reducedTo rules code).flatten rules zone = .ok part) ∧
    ∀ result, place.flatten rules zone = .ok result → ∃ parts : List StopPlace,
      List.Forall₂ (fun code part => (place.reducedTo rules code).flatten rules zone = .ok part)
        (place.publicCodes rules) parts ∧
      result = { place with quays := (parts.map (·.quays)).flatten } := by
  have returned (result : StopPlace) (flattened : place.flatten rules zone = .ok result) :
      ∃ parts : List StopPlace,
        List.Forall₂ (fun code part => (place.reducedTo rules code).flatten rules zone = .ok part)
          (place.publicCodes rules) parts ∧
        result = { place with quays := (parts.map (·.quays)).flatten } := by
    obtain ⟨versions, quays, read, -, -⟩ :=
      (flatten_eq_ok_iff_flattenVersions accepted).mp flattened
    rw [flatten_eq_mapM_reducedTo accepted read] at flattened
    obtain ⟨parts, taken, rfl⟩ := map_eq_ok_iff.mp flattened
    exact ⟨parts, mapM_eq_ok_iff.mp taken, rfl⟩
  refine ⟨fun code => mem_publicCodes, pairwise_publicCodes, ⟨?_, fun flattened => ?_⟩, returned⟩
  · rintro ⟨result, flattened⟩
    obtain ⟨parts, taken, -⟩ := returned result flattened
    exact exists_mapM_eq_ok_iff.mp ⟨parts, mapM_eq_ok_iff.mpr taken⟩
  · obtain ⟨versions, read⟩ := exists_versions_of_reducedTo named flattened
    obtain ⟨parts, taken⟩ := exists_mapM_eq_ok_iff.mpr flattened
    rw [flatten_eq_mapM_reducedTo accepted read, taken]
    exact ⟨_, rfl⟩

/-- The stop place of two versions with a draft of another code. -/
def twoCodes : StopPlace :=
  { twoVersions with quays := twoVersions.quays ++
      [{ registeredQuay "other" "30" "2024-01-01" with publicCode := some ⟨"A1", by decide⟩ }] }

/-- The code of the draft comes first and leaves no quays; the other one leaves two. -/
theorem flatten_code_by_code_twoCodes :
    (∃ q ∈ twoCodes.quays, FlatteningRules.default.acceptsSource q.sourceType? = true) ∧
    (∀ q ∈ twoCodes.quays, FlatteningRules.default.acceptsSource q.sourceType? = true →
      ∃ code, q.publicCode = some code) ∧
    (twoCodes.publicCodes .default).map (·.text) = ["A1", "H1"] ∧
    ∃ result, twoCodes.flatten .default (.fixed (.east 0)) = .ok result ∧
      result.quays.length = 2 := by
  have accepted : ∃ q ∈ twoCodes.quays,
      FlatteningRules.default.acceptsSource q.sourceType? = true :=
    ⟨_, List.mem_cons_self, by decide⟩
  have named : ∀ q ∈ twoCodes.quays, FlatteningRules.default.acceptsSource q.sourceType? = true →
      ∃ code, q.publicCode = some code := by
    have all : ∀ q ∈ twoCodes.quays, q.publicCode.isSome = true := by decide
    exact fun q member _ => Option.isSome_iff_exists.mp (all q member)
  have codes : twoCodes.publicCodes .default = [⟨"A1", by decide⟩, ⟨"H1", by decide⟩] := by cbv
  obtain ⟨-, -, exists_iff, returned⟩ :=
    flatten_code_by_code (.fixed (.east 0)) accepted named
  have draft : (twoCodes.reducedTo .default ⟨"A1", by decide⟩).flatten .default
      (.fixed (.east 0)) = .ok { twoCodes with quays := [] } :=
    (flatten_eq_ok_iff_flattenVersions (exists_accepted_reducedTo (by rw [codes]; simp))).mpr
      ⟨[], [], by cbv, rfl, rfl⟩
  obtain ⟨place, flattenedTwo, length⟩ := exists_flatten_twoVersions
  have versions : (twoCodes.reducedTo .default ⟨"H1", by decide⟩).flatten .default
      (.fixed (.east 0)) = .ok place := by
    have same : twoCodes.reducedTo .default ⟨"H1", by decide⟩ = twoVersions := by cbv
    rw [same]
    exact flattenedTwo
  refine ⟨accepted, named, by rw [codes]; rfl, ?_⟩
  rw [codes] at exists_iff returned
  obtain ⟨result, flattened⟩ := exists_iff.mpr (by simp [draft, versions])
  obtain ⟨parts, taken, rfl⟩ := returned result flattened
  obtain _ | ⟨first, _ | ⟨second, _ | _⟩⟩ := taken
  cases draft.symm.trans first
  cases versions.symm.trans second
  refine ⟨_, flattened, ?_⟩
  simpa using length

end StopPlace

end QuayTimeline
