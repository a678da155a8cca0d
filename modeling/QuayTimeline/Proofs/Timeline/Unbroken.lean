import QuayTimeline.Proofs.Timeline.Flatten

/-! # No needless cuts

A version is cut only by versions that outrank it. So each of its fragments is as long as it can
be, and what stands between two of them is a version of higher priority, or a further fragment of
the same version with such versions at both sides. -/

namespace QuayTimeline

theorem Validity.IsWithin.mem {v w : Validity} (within : v.IsWithin w) {d : Day} (mem : d ∈ v) :
    d ∈ w :=
  ⟨Int.le_trans within.1 mem.1, Int.le_trans mem.2 within.2⟩

namespace Timeline

variable {α : Type}

/-- The version at a position stands above all others that cover a day. -/
def RanksHighest (versions : List (Version α)) (i : Nat) (d : Day) : Prop :=
  ∃ v, versions[i]? = some v ∧ d ∈ v.validity ∧ ∀ (j : Nat) (w : Version α), j ≠ i →
    versions[j]? = some w → d ∈ w.validity → w.validity.priority < v.validity.priority

/-- A fragment of the version at a position: it has the owner and the priority of that version, on
some of its days. -/
structure StemsFrom (versions : List (Version α)) (i : Nat) (f : Version α) : Prop where
  covers : f.validity.CoversSomeDay
  origin : ∃ v, versions[i]? = some v ∧ f.owner = v.owner ∧
    f.validity.priority = v.validity.priority ∧ f.validity.IsWithin v.validity

/-- The version at a position ranks highest on all days of a fragment, and on all days of no longer
range. -/
structure IsLongest (versions : List (Version α)) (i : Nat) (f : Version α) : Prop where
  highest : ∀ d ∈ f.validity, RanksHighest versions i d
  longest : ∀ range : Validity, (∀ d ∈ f.validity, d ∈ range) →
    (∀ d ∈ range, RanksHighest versions i d) → ∀ d ∈ range, d ∈ f.validity

/-- The day lies after all days of one fragment and before all days of the other one. -/
def IsBetween (f g : Version α) (d : Day) : Prop :=
  f.validity.last < d ∧ d < g.validity.start

instance (f g : Version α) (d : Day) : Decidable (IsBetween f g d) :=
  inferInstanceAs (Decidable (_ ∧ _))

theorem ranksHighest_iff_wins {versions : List (Version α)} (clashFree : ClashFree versions)
    {i : Nat} {v : Version α} (atI : versions[i]? = some v) {d : Day} :
    RanksHighest versions i d ↔ Wins versions v d := by
  constructor
  · rintro ⟨u, atU, mem, above⟩
    obtain rfl : u = v := Option.some.inj (atU.symm.trans atI)
    constructor
    · exact List.mem_of_getElem? atI
    · exact mem
    · intro w member memW
      obtain ⟨j, atJ⟩ := List.mem_iff_getElem?.mp member
      by_cases same : j = i
      · subst same
        obtain rfl : w = u := Option.some.inj (atJ.symm.trans atI)
        exact Int.le_refl _
      · exact Int.le_of_lt (above j w same atJ memW)
  · intro wins
    use v, atI, wins.mem
    intro j w distinct atJ memW
    apply Int.lt_iff_le_and_ne.mpr
    constructor
    · exact wins.highest w (List.mem_of_getElem? atJ) memW
    · intro same
      have clash : w.Clashes v := ⟨Priority.ext same, d, memW, wins.mem⟩
      exact clashFree_iff_getElem?.mp clashFree j i w v distinct atJ atI clash

/-- Where versions do not clash, a fragment stems from one position at most. -/
theorem StemsFrom.position_unique {versions : List (Version α)} (clashFree : ClashFree versions)
    {i j : Nat} {f : Version α} (first : StemsFrom versions i f) (second : StemsFrom versions j f) :
    i = j := by
  obtain ⟨v, atI, -, priorityV, daysV⟩ := first.origin
  obtain ⟨w, atJ, -, priorityW, daysW⟩ := second.origin
  have mem := Validity.mem_start first.covers
  have clash : v.Clashes w :=
    ⟨priorityV.symm.trans priorityW, _, daysV.mem mem, daysW.mem mem⟩
  by_contra distinct
  exact clashFree_iff_getElem?.mp clashFree i j v w distinct atI atJ clash

theorem IsRun.stemsFrom {versions : List (Version α)} {v f : Version α} (run : IsRun versions v f)
    {i : Nat} (atI : versions[i]? = some v) : StemsFrom versions i f :=
  ⟨run.covers, v, atI, run.owner, run.priority, (run.wins _ (Validity.mem_start run.covers)).mem.1,
    (run.wins _ (Validity.mem_last run.covers)).mem.2⟩

theorem IsRun.exists_position {versions : List (Version α)} {v f : Version α}
    (run : IsRun versions v f) : ∃ i : Nat, versions[i]? = some v :=
  List.mem_iff_getElem?.mp (run.wins _ (Validity.mem_start run.covers)).member

/-- A run stems from the version that it is a run of, and from no other position. -/
theorem IsRun.getElem?_of_stemsFrom {versions : List (Version α)} (clashFree : ClashFree versions)
    {v f : Version α} (run : IsRun versions v f) {i : Nat} (stems : StemsFrom versions i f) :
    versions[i]? = some v := by
  obtain ⟨j, atJ⟩ := run.exists_position
  rw [stems.position_unique clashFree (run.stemsFrom atJ)]
  exact atJ

/-- A run is as long as it can be: a longer range would hold a day right before or after it. -/
theorem IsRun.isLongest {versions : List (Version α)} (clashFree : ClashFree versions)
    {v f : Version α} (run : IsRun versions v f) {i : Nat} (atI : versions[i]? = some v) :
    IsLongest versions i f := by
  have iff := fun d => ranksHighest_iff_wins clashFree atI (d := d)
  constructor
  · intro d mem
    exact (iff d).mpr (run.wins d mem)
  · intro range around highest d mem
    have memStart := around _ (Validity.mem_start run.covers)
    have memLast := around _ (Validity.mem_last run.covers)
    by_contra outside
    simp only [Validity.mem_def, Day.le_def, not_and_or, Int.not_le] at mem memStart memLast outside
    cases outside with
    | inl earlier =>
      obtain ⟨p, number⟩ := Day.exists_of_number_between d f.validity.start
        (n := f.validity.start.number - 1) (by omega) (by omega)
      apply run.before p number
      apply (iff p).mp
      apply highest
      simp only [Validity.mem_def, Day.le_def]
      omega
    | inr later =>
      obtain ⟨p, number⟩ := Day.exists_of_number_between f.validity.last d
        (n := f.validity.last.number + 1) (by omega) (by omega)
      apply run.after p number
      apply (iff p).mp
      apply highest
      simp only [Validity.mem_def, Day.le_def]
      omega

/-- A day between two runs of a version is held by a run of that version, or by one of higher
priority. -/
theorem Resolves.exists_between {versions : List (Version α)} {timeline : Timeline α}
    (clashFree : ClashFree versions) (resolves : Resolves versions timeline) {v f g : Version α}
    (runF : IsRun versions v f) (runG : IsRun versions v g) {d : Day} (between : IsBetween f g d) :
    ∃ h ∈ timeline, d ∈ h.validity ∧
      (v.validity.priority < h.validity.priority ∨ IsRun versions v h) := by
  have winsF := runF.wins _ (Validity.mem_last runF.covers)
  have winsG := runG.wins _ (Validity.mem_start runG.covers)
  -- The version covers what lies between days that it covers.
  have mem : d ∈ v.validity := by
    have low := winsF.mem.1
    have high := winsG.mem.2
    simp only [IsBetween, Validity.mem_def, Day.le_def, Day.lt_def] at between low high ⊢
    omega
  obtain ⟨w, wins⟩ := exists_wins winsF.member mem
  obtain ⟨h, memberH, memH⟩ := resolves.covered w d wins
  obtain ⟨u, runH⟩ := resolves.run h memberH
  use h, memberH, memH
  by_cases same : v = u
  · subst same
    exact .inr runH
  · left
    rw [runH.priority]
    exact (runH.wins d memH).outranks clashFree winsF.member same mem

/-- The day after a run is not won by its version, so a later run of the version starts later. -/
theorem IsRun.exists_day_after {versions : List (Version α)} {v f g : Version α}
    (runF : IsRun versions v f) (runG : IsRun versions v g)
    (before : f.validity.last < g.validity.start) :
    ∃ d, IsBetween f g d ∧ ¬ Wins versions v d := by
  rw [Day.lt_def] at before
  obtain ⟨d, number⟩ := Day.exists_of_number_between f.validity.last g.validity.start
    (n := f.validity.last.number + 1) (by omega) (by omega)
  have lost := runF.after d number
  use d
  constructor
  · by_contra notBetween
    simp only [IsBetween, Day.lt_def, not_and_or, Int.not_lt] at notBetween
    have same : d = g.validity.start := Day.eq_of_number_eq (by omega)
    exact lost (same ▸ runG.wins _ (Validity.mem_start runG.covers))
  · exact lost

theorem Resolves.exists_isRun {versions : List (Version α)} {timeline : Timeline α}
    (clashFree : ClashFree versions) (resolves : Resolves versions timeline) {f : Version α}
    (member : f ∈ timeline) {i : Nat} (stems : StemsFrom versions i f) :
    ∃ v, versions[i]? = some v ∧ IsRun versions v f := by
  obtain ⟨v, run⟩ := resolves.run f member
  exact ⟨v, run.getElem?_of_stemsFrom clashFree stems, run⟩

/-- What stands between two fragments of a version: somewhere a fragment of higher priority, and
nothing but such fragments and further ones of the version. -/
theorem Resolves.pairwise_between {versions : List (Version α)} {timeline : Timeline α}
    (clashFree : ClashFree versions) (resolves : Resolves versions timeline) :
    timeline.Pairwise fun f g => ∀ i, StemsFrom versions i f → StemsFrom versions i g →
      (∃ d, IsBetween f g d ∧
        ∃ h ∈ timeline, d ∈ h.validity ∧ f.validity.priority < h.validity.priority) ∧
      ∀ d, IsBetween f g d → ∃ h ∈ timeline, d ∈ h.validity ∧
        (f.validity.priority < h.validity.priority ∨ StemsFrom versions i h) := by
  apply resolves.flat.ordered.imp_of_mem
  intro f g memberF memberG before i stemsF stemsG
  obtain ⟨v, atI, runF⟩ := resolves.exists_isRun clashFree memberF stemsF
  obtain ⟨w, atW, runG⟩ := resolves.exists_isRun clashFree memberG stemsG
  obtain rfl : w = v := Option.some.inj (atW.symm.trans atI)
  constructor
  · obtain ⟨d, between, lost⟩ := runF.exists_day_after runG before
    obtain ⟨h, memberH, memH, higher | runH⟩ := resolves.exists_between clashFree runF runG between
    · exact ⟨d, between, h, memberH, memH, runF.priority ▸ higher⟩
    · exact absurd (runH.wins d memH) lost
  · intro d between
    obtain ⟨h, memberH, memH, higher | runH⟩ := resolves.exists_between clashFree runF runG between
    · exact ⟨h, memberH, memH, .inl (runF.priority ▸ higher)⟩
    · exact ⟨h, memberH, memH, .inr (runH.stemsFrom atI)⟩

/-- No fragment of a timeline is shorter than it must be. Each stems from one version, and is a
longest range of days on which that version ranks highest. Between two fragments of a version there
is a day of a higher priority, and all days there are of higher priorities or in further fragments
of the version. Fragments that touch stem from different versions. -/
theorem flatten_unbroken [BEq α] [ReflBEq α] {publicCode : String} {versions : List (Version α)}
    {timeline : Timeline α} (flattened : flatten publicCode versions = .ok timeline) :
    (∀ f ∈ timeline, ∃! i, StemsFrom versions i f) ∧
    (∀ f ∈ timeline, ∀ i, StemsFrom versions i f → IsLongest versions i f) ∧
    (timeline.Pairwise fun f g => ∀ i, StemsFrom versions i f → StemsFrom versions i g →
      (∃ d, IsBetween f g d ∧
        ∃ h ∈ timeline, d ∈ h.validity ∧ f.validity.priority < h.validity.priority) ∧
      ∀ d, IsBetween f g d → ∃ h ∈ timeline, d ∈ h.validity ∧
        (f.validity.priority < h.validity.priority ∨ StemsFrom versions i h)) ∧
    ∀ (k : Nat) f g, timeline[k]? = some f → timeline[k + 1]? = some g →
      g.validity.start.number = f.validity.last.number + 1 →
      ∀ i, StemsFrom versions i f → ¬ StemsFrom versions i g := by
  obtain ⟨clashFree, resolves⟩ := flatten_eq_ok_iff.mp flattened
  have apart := resolves.pairwise_between clashFree
  constructor
  · intro f member
    obtain ⟨v, run⟩ := resolves.run f member
    obtain ⟨i, atI⟩ := run.exists_position
    exact ⟨i, run.stemsFrom atI, fun j stems => stems.position_unique clashFree (run.stemsFrom atI)⟩
  constructor
  · intro f member i stems
    obtain ⟨v, atI, run⟩ := resolves.exists_isRun clashFree member stems
    exact run.isLongest clashFree atI
  constructor
  · exact apart
  · intro k f g atK atNext touching i stemsF stemsG
    obtain ⟨boundF, rfl⟩ := List.getElem?_eq_some_iff.mp atK
    obtain ⟨boundG, rfl⟩ := List.getElem?_eq_some_iff.mp atNext
    obtain ⟨⟨d, between, -⟩, -⟩ := List.pairwise_iff_getElem.mp apart k (k + 1) boundF boundG
      (Nat.lt_succ_self k) i stemsF stemsG
    -- No day lies between fragments that touch.
    simp only [IsBetween, Day.lt_def] at between
    omega

/-- A long version, and two short ones of higher priority over its inner days. -/
def twiceInterrupted : List (Version String) :=
  [versionOn "long" 10 1 5, versionOn "early" 20 2 2, versionOn "late" 20 4 4].filterMap id

/-- The long version keeps its first, third and last day. -/
def keptThrice : Timeline String :=
  [versionOn "long" 10 1 1, versionOn "early" 20 2 2, versionOn "long" 10 3 3,
    versionOn "late" 20 4 4, versionOn "long" 10 5 5].filterMap id

theorem flatten_twiceInterrupted : flatten "H1" twiceInterrupted = .ok keptThrice := by
  cbv

theorem flatten_unbroken_twiceInterrupted :
    flatten "H1" twiceInterrupted = .ok keptThrice ∧
      ∀ f ∈ keptThrice, ∀ i, StemsFrom twiceInterrupted i f → IsLongest twiceInterrupted i f :=
  ⟨flatten_twiceInterrupted, (flatten_unbroken flatten_twiceInterrupted).2.1⟩

/-- Not all days between two fragments of a version are of higher priority: a further fragment of it
may stand there. -/
theorem not_outranked_throughout_twiceInterrupted :
    ¬ ∀ timeline, flatten "H1" twiceInterrupted = .ok timeline →
      timeline.Pairwise fun f g => ∀ i, StemsFrom twiceInterrupted i f →
        StemsFrom twiceInterrupted i g → (∃ d, IsBetween f g d) ∧
          ∀ d, IsBetween f g d →
            ∃ h ∈ timeline, d ∈ h.validity ∧ f.validity.priority < h.validity.priority := by
  intro claimed
  have apart := List.pairwise_iff_getElem.mp (claimed _ flatten_twiceInterrupted) 0 4 (by decide)
    (by decide) (by decide) 0
  have first : StemsFrom twiceInterrupted 0 keptThrice[0] :=
    ⟨by decide, _, rfl, by decide, by decide, by decide⟩
  have last : StemsFrom twiceInterrupted 0 keptThrice[4] :=
    ⟨by decide, _, rfl, by decide, by decide, by decide⟩
  -- The third day is the long version's own.
  obtain ⟨h, member, mem, higher⟩ :=
    (apart first last).2 keptThrice[2].validity.start (by decide)
  revert h
  decide

end Timeline

end QuayTimeline
