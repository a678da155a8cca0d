import Mathlib
import QuayTimeline.Proofs.Outcome
import QuayTimeline.Proofs.Timeline.Check

/-! # What flattening returns

Versions are taken by priority, so each next one has the highest priority so far, and the check
stops at the first one that clashes. Hence flattening succeeds just on versions that do not clash,
and then returns the timeline they resolve to. -/

namespace QuayTimeline.Timeline

variable {α : Type} [BEq α] [ReflBEq α]

/-- One step: the timeline resolves the versions with the next one as well. -/
theorem Resolves.add {publicCode : String} {versions : List (Version α)}
    {timeline extended : Timeline α} (resolves : Resolves versions timeline) {next : Version α}
    (highest : ∀ v ∈ versions, v.validity.priority ≤ next.validity.priority)
    (clashFree : ∀ v ∈ versions, ¬ v.Clashes next)
    (added : add publicCode timeline next = .ok extended) :
    Resolves (versions ++ [next]) extended := by
  rcases resolves.flat.eq_of_add added with ⟨covers, rfl⟩ | ⟨empty, rfl⟩
  · exact resolves.overlay ⟨covers, highest, clashFree⟩
  · exact resolves.append_empty empty

theorem Resolves.foldlM_add {publicCode : String} {versions rest : List (Version α)}
    {timeline result : Timeline α} (resolves : Resolves versions timeline)
    (clashFree : ClashFree (versions ++ rest))
    (sorted : (versions ++ rest).Pairwise fun v w => v.validity.priority ≤ w.validity.priority)
    (folded : rest.foldlM (Timeline.add publicCode) timeline = .ok result) :
    Resolves (versions ++ rest) result := by
  apply foldlM_induction (motive := fun taken => Resolves (versions ++ taken)) _ _ folded
  · simpa using resolves
  · intro taken next later timeline extended split resolves added
    rw [split, ← List.append_assoc] at clashFree sorted
    rw [← List.append_assoc]
    apply resolves.add _ _ added
    · intro v member
      exact (List.pairwise_append.mp sorted).2.2 v member next List.mem_cons_self
    · intro v member
      exact (List.pairwise_append.mp clashFree).2.2 v member next List.mem_cons_self

theorem flatten_cases (publicCode : String) (versions : List (Version α)) :
    (∃ timeline, flatten publicCode versions = .ok timeline ∧ Resolves versions timeline ∧
        ClashFree versions) ∨
      ∃ error, flatten publicCode versions = .error error ∧ ¬ ClashFree versions := by
  have perm := List.mergeSort_perm versions Version.precedes
  cases flattened : flatten publicCode versions with
  | ok timeline =>
    have clashFree := exists_flatten_iff_clashFree.mp ⟨timeline, flattened⟩
    have resolves := Resolves.nil.foldlM_add ((ClashFree.perm perm).mpr clashFree)
      (pairwise_priority_mergeSort versions) flattened
    exact .inl ⟨timeline, rfl, resolves.congr fun v => perm.mem_iff, clashFree⟩
  | error error =>
    refine .inr ⟨error, rfl, fun clashFree => ?_⟩
    obtain ⟨timeline, succeeded⟩ := exists_flatten_iff_clashFree.mpr clashFree
    rw [flattened] at succeeded
    cases succeeded

/-- Flattening returns the timeline that the versions resolve to, unless two of them clash. -/
theorem flatten_eq_ok_iff {publicCode : String} {versions : List (Version α)}
    {timeline : Timeline α} :
    flatten publicCode versions = .ok timeline ↔
      ClashFree versions ∧ Resolves versions timeline := by
  rcases flatten_cases publicCode versions with
    ⟨result, flattened, resolves, clashFree⟩ | ⟨error, failed, clash⟩
  · rw [flattened, Except.ok.injEq]
    exact ⟨fun same => ⟨clashFree, same ▸ resolves⟩, fun h => resolves.unique clashFree h.2⟩
  · rw [failed]
    exact ⟨fun same => (nomatch same), fun h => absurd h.1 clash⟩

/-! ## Day by day -/

omit [BEq α] [ReflBEq α] in
/-- Where versions do not clash, the winner of a day stands above all others that cover it. -/
theorem Wins.exists_strictly_highest {versions : List (Version α)} (clashFree : ClashFree versions)
    {v : Version α} {d : Day} (wins : Wins versions v d) :
    ∃ i : Nat, versions[i]? = some v ∧ ∀ (j : Nat) (w : Version α), j ≠ i →
      versions[j]? = some w → d ∈ w.validity → w.validity.priority < v.validity.priority := by
  obtain ⟨i, atI⟩ := List.mem_iff_getElem?.mp wins.member
  refine ⟨i, atI, fun j w distinct atJ mem => ?_⟩
  have le := wins.highest w (List.mem_of_getElem? atJ) mem
  refine Int.lt_iff_le_and_ne.mpr ⟨le, fun same => ?_⟩
  exact clashFree_iff_getElem?.mp clashFree j i w v distinct atJ atI
    ⟨Priority.ext same, d, mem, wins.mem⟩

omit [BEq α] [ReflBEq α] in
/-- Only the last fragment of a flat timeline can be without an end. -/
theorem IsFlat.succ_eq_length_of_isIndefinite {timeline : Timeline α} (flat : timeline.IsFlat)
    {i : Nat} {f : Version α} (atI : timeline[i]? = some f) (indefinite : f.validity.IsIndefinite) :
    i + 1 = timeline.length := by
  obtain ⟨bound, rfl⟩ := List.getElem?_eq_some_iff.mp atI
  by_contra notLast
  have next : i + 1 < timeline.length := by omega
  have before := List.pairwise_iff_getElem.mp flat.ordered i (i + 1) bound next (Nat.lt_succ_self i)
  rw [indefinite] at before
  exact absurd (Day.le_last _) (Int.not_le.mpr before)

/-- Flattening succeeds unless two versions share a day at one priority. It returns fragments that
follow each other in time, cover just the days that some version covers, and give each of them to
the version of highest priority. -/
theorem flatten_by_day (publicCode : String) (versions : List (Version α)) :
    ((∃ timeline, flatten publicCode versions = .ok timeline) ↔
      ¬ ∃ (i j : Nat) (v w : Version α), i ≠ j ∧ versions[i]? = some v ∧ versions[j]? = some w ∧
        v.validity.CoversSomeDay ∧ w.validity.CoversSomeDay ∧
        v.validity.priority = w.validity.priority ∧ ∃ d, d ∈ v.validity ∧ d ∈ w.validity) ∧
    ∀ timeline, flatten publicCode versions = .ok timeline →
      (∀ f ∈ timeline, f.validity.CoversSomeDay) ∧
      (timeline.Pairwise fun f g => f.validity.last < g.validity.start) ∧
      (∀ (i : Nat) f, timeline[i]? = some f → f.validity.IsIndefinite → i + 1 = timeline.length) ∧
      ∀ d, ((∃ f ∈ timeline, d ∈ f.validity) ↔ ∃ v ∈ versions, d ∈ v.validity) ∧
        ∀ f ∈ timeline, d ∈ f.validity → ∃ (i : Nat) (v : Version α), versions[i]? = some v ∧
          d ∈ v.validity ∧ f.owner = v.owner ∧ f.validity.priority = v.validity.priority ∧
          ∀ (j : Nat) (w : Version α), j ≠ i → versions[j]? = some w → d ∈ w.validity →
            w.validity.priority < v.validity.priority := by
  constructor
  · constructor
    · rintro ⟨timeline, flattened⟩ ⟨i, j, v, w, distinct, atI, atJ, -, -, clash⟩
      exact clashFree_iff_getElem?.mp (flatten_eq_ok_iff.mp flattened).1 i j v w distinct atI atJ
        clash
    · intro noClash
      rcases flatten_cases publicCode versions with ⟨timeline, flattened, -⟩ | ⟨error, -, clash⟩
      · exact ⟨timeline, flattened⟩
      · refine absurd (clashFree_iff_getElem?.mpr fun i j v w distinct atI atJ clash => ?_) clash
        obtain ⟨priority, d, memV, memW⟩ := clash
        exact noClash ⟨i, j, v, w, distinct, atI, atJ, Validity.coversSomeDay_of_mem memV,
          Validity.coversSomeDay_of_mem memW, priority, d, memV, memW⟩
  · intro timeline flattened
    obtain ⟨clashFree, resolves⟩ := flatten_eq_ok_iff.mp flattened
    refine ⟨resolves.flat.covers, resolves.flat.ordered,
      fun i f atI => resolves.flat.succ_eq_length_of_isIndefinite atI, fun d => ⟨⟨?_, ?_⟩, ?_⟩⟩
    · rintro ⟨f, memberF, memF⟩
      obtain ⟨v, run⟩ := resolves.run f memberF
      exact ⟨v, (run.wins d memF).member, (run.wins d memF).mem⟩
    · rintro ⟨v, memberV, memV⟩
      obtain ⟨w, wins⟩ := exists_wins memberV memV
      exact resolves.covered w d wins
    · intro f memberF memF
      obtain ⟨v, run⟩ := resolves.run f memberF
      have wins := run.wins d memF
      obtain ⟨i, atI, highest⟩ := wins.exists_strictly_highest clashFree
      exact ⟨i, v, atI, wins.mem, run.owner, run.priority, highest⟩

/-- A version of a priority from one day to another, by their numbers. -/
def versionOn (owner : String) (priority start last : Int) : Option (Version String) := do
  let priority ← Priority.ofInt? priority
  let start ← Day.ofNumber? start
  let last ← Day.ofNumber? last
  return ⟨owner, start, last, priority⟩

/-- A short version of higher priority on top of an open-ended one. -/
def nestedVersions : List (Version String) :=
  [⟨"inner", ⟨⟨4, by decide, by decide⟩, ⟨5, by decide, by decide⟩, ⟨20, by decide, by decide⟩⟩⟩,
   ⟨"outer", ⟨⟨1, by decide, by decide⟩, Day.last, ⟨10, by decide, by decide⟩⟩⟩]

/-- The open-ended version is split in two, and the last day is covered again. -/
theorem flatten_by_day_nestedVersions :
    ReflBEq String ∧ ∃ timeline, flatten "H1" nestedVersions = .ok timeline ∧
      timeline.length = 3 ∧ ∃ f ∈ timeline, Day.last ∈ f.validity := by
  refine ⟨inferInstance, _, by cbv, rfl, ?_⟩
  refine (((flatten_by_day "H1" nestedVersions).2 _ (by cbv)).2.2.2 Day.last).1.mpr ?_
  exact ⟨_, List.mem_cons_of_mem _ List.mem_cons_self, by decide⟩

end QuayTimeline.Timeline
