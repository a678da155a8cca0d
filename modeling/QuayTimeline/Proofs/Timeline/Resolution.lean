import QuayTimeline.Proofs.Timeline.Splice

/-! # The timeline that versions resolve to

Each day belongs to the version of highest priority that covers it. A flat timeline resolves
versions when it consists of the maximal runs of days that one version wins. Versions that do not
clash have one such timeline only, and flattening finds it: the invariant of the fold is that the
timeline made so far resolves the versions taken so far. -/

namespace QuayTimeline

theorem Priority.eq_of_le_of_le {p q : Priority} (le : p ≤ q) (ge : q ≤ p) : p = q :=
  Priority.ext (Int.le_antisymm le ge)

namespace Version

variable {α : Type}

/-- Two versions of one priority that share a day. -/
def Clashes (v w : Version α) : Prop :=
  v.validity.priority = w.validity.priority ∧ ∃ d, d ∈ v.validity ∧ d ∈ w.validity

theorem Clashes.symm {v w : Version α} (clash : v.Clashes w) : w.Clashes v :=
  ⟨clash.1.symm, clash.2.imp fun _ mem => mem.symm⟩

instance : Std.Symm fun v w : Version α => ¬ v.Clashes w :=
  ⟨fun _ _ clashFree clash => clashFree clash.symm⟩

end Version

namespace Timeline

variable {α : Type}

/-- No two versions share a day at one priority. -/
def ClashFree (versions : List (Version α)) : Prop :=
  versions.Pairwise fun v w => ¬ v.Clashes w

/-- A version wins a day that it covers, if no version that covers it has a higher priority. -/
structure Wins (versions : List (Version α)) (v : Version α) (d : Day) : Prop where
  member : v ∈ versions
  mem : d ∈ v.validity
  highest : ∀ w ∈ versions, d ∈ w.validity → w.validity.priority ≤ v.validity.priority

/-- A fragment is a run of a version: days that the version wins, and neither the day before them
nor the day after them. -/
structure IsRun (versions : List (Version α)) (v f : Version α) : Prop where
  owner : f.owner = v.owner
  priority : f.validity.priority = v.validity.priority
  covers : f.validity.CoversSomeDay
  wins : ∀ d ∈ f.validity, Wins versions v d
  before : ∀ d : Day, d.number = f.validity.start.number - 1 → ¬ Wins versions v d
  after : ∀ d : Day, d.number = f.validity.last.number + 1 → ¬ Wins versions v d

/-- A timeline resolves versions: it has all days that are won, in runs of the winners. -/
structure Resolves (versions : List (Version α)) (timeline : Timeline α) : Prop where
  flat : timeline.IsFlat
  covered : ∀ v d, Wins versions v d → ∃ f ∈ timeline, d ∈ f.validity
  run : ∀ f ∈ timeline, ∃ v, IsRun versions v f

/-! ## Winners -/

theorem ClashFree.perm {versions others : List (Version α)} (perm : versions.Perm others) :
    ClashFree versions ↔ ClashFree others :=
  perm.pairwise_iff fun clashFree clash => clashFree clash.symm

/-- A day has one winner at most. -/
theorem Wins.unique {versions : List (Version α)} (clashFree : ClashFree versions)
    {v w : Version α} {d : Day} (first : Wins versions v d) (second : Wins versions w d) :
    v = w := by
  -- Two winners would rank equally on a day they share, and clash.
  by_contra distinct
  have priority := Priority.eq_of_le_of_le (second.highest v first.member first.mem)
    (first.highest w second.member second.mem)
  exact clashFree.forall first.member second.member distinct
    ⟨priority, d, first.mem, second.mem⟩

/-- Where versions do not clash, the winner of a day ranks above all others that cover it. -/
theorem Wins.outranks {versions : List (Version α)} (clashFree : ClashFree versions)
    {v w : Version α} {d : Day} (wins : Wins versions v d) (member : w ∈ versions)
    (distinct : w ≠ v) (mem : d ∈ w.validity) : w.validity.priority < v.validity.priority := by
  refine Int.lt_iff_le_and_ne.mpr ⟨wins.highest w member mem, fun same => ?_⟩
  exact clashFree.forall member wins.member distinct ⟨Priority.ext same, d, mem, wins.mem⟩

/-- A day that some version covers has a winner. -/
theorem exists_wins {versions : List (Version α)} {w : Version α} (member : w ∈ versions) {d : Day}
    (mem : d ∈ w.validity) : ∃ v, Wins versions v d := by
  induction versions generalizing w with
  | nil => cases member
  | cons u rest ih =>
    by_cases covered : ∃ x ∈ rest, d ∈ x.validity
    · obtain ⟨x, memberX, memX⟩ := covered
      obtain ⟨v, wins⟩ := ih memberX memX
      -- The first version takes over from the winner of the others only by a higher priority.
      by_cases higher : d ∈ u.validity ∧ v.validity.priority < u.validity.priority
      · refine ⟨u, List.mem_cons_self, higher.1, fun x memberX memX => ?_⟩
        rcases List.mem_cons.mp memberX with rfl | memberX
        · exact Int.le_refl _
        · exact Int.le_trans (wins.highest x memberX memX) (Int.le_of_lt higher.2)
      · refine ⟨v, List.mem_cons_of_mem _ wins.member, wins.mem, fun x memberX memX => ?_⟩
        rcases List.mem_cons.mp memberX with rfl | memberX
        · exact Int.not_lt.mp fun lt => higher ⟨memX, lt⟩
        · exact wins.highest x memberX memX
    · have uncovered : ∀ x ∈ rest, d ∉ x.validity := fun x memberX memX =>
        covered ⟨x, memberX, memX⟩
      have same : w = u := by
        cases List.mem_cons.mp member with
        | inl same => exact same
        | inr member => exact absurd mem (uncovered w member)
      subst same
      refine ⟨w, List.mem_cons_self, mem, fun x memberX memX => ?_⟩
      rcases List.mem_cons.mp memberX with rfl | memberX
      · exact Int.le_refl _
      · exact absurd memX (uncovered x memberX)

/-- Who wins depends on which versions there are, not on their order. -/
theorem Wins.congr {versions others : List (Version α)} (same : ∀ v, v ∈ versions ↔ v ∈ others)
    {v : Version α} {d : Day} (wins : Wins versions v d) : Wins others v d :=
  ⟨(same v).mp wins.member, wins.mem, fun w member => wins.highest w ((same w).mpr member)⟩

/-- What the runs of a version are depends only on the days that it wins. -/
theorem IsRun.of_wins_iff {versions others : List (Version α)} {v f : Version α}
    (same : ∀ d, Wins versions v d ↔ Wins others v d) (run : IsRun versions v f) :
    IsRun others v f where
  owner := run.owner
  priority := run.priority
  covers := run.covers
  wins d mem := (same d).mp (run.wins d mem)
  before d number wins := run.before d number ((same d).mpr wins)
  after d number wins := run.after d number ((same d).mpr wins)

theorem Resolves.of_wins_iff {versions others : List (Version α)} {timeline : Timeline α}
    (same : ∀ v d, Wins versions v d ↔ Wins others v d) (resolves : Resolves versions timeline) :
    Resolves others timeline where
  flat := resolves.flat
  covered v d wins := resolves.covered v d ((same v d).mpr wins)
  run f member := (resolves.run f member).imp fun v run => run.of_wins_iff (same v)

theorem Resolves.congr {versions others : List (Version α)}
    (same : ∀ v, v ∈ versions ↔ v ∈ others) {timeline : Timeline α}
    (resolves : Resolves versions timeline) : Resolves others timeline :=
  resolves.of_wins_iff fun _ _ => ⟨Wins.congr same, Wins.congr fun w => (same w).symm⟩

/-! ## Uniqueness -/

/-- Of two runs of a version that share a day, neither starts earlier. -/
theorem IsRun.start_le {versions : List (Version α)} {v f g : Version α}
    (runF : IsRun versions v f) (runG : IsRun versions v g) {d : Day} (memF : d ∈ f.validity)
    (memG : d ∈ g.validity) : g.validity.start ≤ f.validity.start := by
  by_contra later
  have memLe := memF.2
  have memGe := memG.1
  simp only [Day.le_def, Int.not_le] at later memLe memGe
  -- The day before the other run lies in this one, so the version wins it after all.
  obtain ⟨p, number⟩ := Day.exists_of_number_between f.validity.start f.validity.last
    (n := g.validity.start.number - 1) (by omega) (by omega)
  refine runG.before p number (runF.wins p ⟨?_, ?_⟩) <;> rw [Day.le_def] <;> omega

/-- Of two runs of a version that share a day, neither ends later. -/
theorem IsRun.last_le {versions : List (Version α)} {v f g : Version α}
    (runF : IsRun versions v f) (runG : IsRun versions v g) {d : Day} (memF : d ∈ f.validity)
    (memG : d ∈ g.validity) : f.validity.last ≤ g.validity.last := by
  by_contra later
  have memGe := memF.1
  have memLe := memG.2
  simp only [Day.le_def, Int.not_le] at later memLe memGe
  obtain ⟨p, number⟩ := Day.exists_of_number_between f.validity.start f.validity.last
    (n := g.validity.last.number + 1) (by omega) (by omega)
  refine runG.after p number (runF.wins p ⟨?_, ?_⟩) <;> rw [Day.le_def] <;> omega

theorem IsRun.eq_of_mem {versions : List (Version α)} {v f g : Version α}
    (runF : IsRun versions v f) (runG : IsRun versions v g) {d : Day} (memF : d ∈ f.validity)
    (memG : d ∈ g.validity) : f = g := by
  have start := Int.le_antisymm (runG.start_le runF memG memF) (runF.start_le runG memF memG)
  have last := Int.le_antisymm (runF.last_le runG memF memG) (runG.last_le runF memG memF)
  exact Version.ext (runF.owner.trans runG.owner.symm) (Validity.ext (Day.eq_of_number_eq start)
    (Day.eq_of_number_eq last) (runF.priority.trans runG.priority.symm))

/-- A version that wins all of its days is a run as it is. -/
theorem isRun_self {versions : List (Version α)} {v : Version α}
    (covers : v.validity.CoversSomeDay) (wins : ∀ d ∈ v.validity, Wins versions v d) :
    IsRun versions v v := by
  refine ⟨rfl, rfl, covers, wins, fun d number wins => ?_, fun d number wins => ?_⟩
  · have startLe := wins.mem.1
    rw [Day.le_def] at startLe
    omega
  · have lastGe := wins.mem.2
    rw [Day.le_def] at lastGe
    omega

/-- A timeline that resolves versions has all of their runs, and nothing else. -/
theorem Resolves.mem_iff {versions : List (Version α)} (clashFree : ClashFree versions)
    {timeline : Timeline α} (resolves : Resolves versions timeline) {f : Version α} :
    f ∈ timeline ↔ ∃ v, IsRun versions v f := by
  refine ⟨resolves.run f, fun ⟨v, run⟩ => ?_⟩
  have memStart := Validity.mem_start run.covers
  obtain ⟨g, memberG, memG⟩ := resolves.covered v _ (run.wins _ memStart)
  obtain ⟨w, runG⟩ := resolves.run g memberG
  -- Without a clash, the fragments that hold on one day are runs of one version.
  obtain rfl := (run.wins _ memStart).unique clashFree (runG.wins _ memG)
  exact run.eq_of_mem runG memStart memG ▸ memberG

/-- Versions that do not clash resolve to one timeline only. -/
theorem Resolves.unique {versions : List (Version α)} (clashFree : ClashFree versions)
    {timeline other : Timeline α} (resolves : Resolves versions timeline)
    (otherResolves : Resolves versions other) : timeline = other :=
  resolves.flat.eq_of_mem_iff otherResolves.flat fun _ =>
    (resolves.mem_iff clashFree).trans (otherResolves.mem_iff clashFree).symm

/-! ## One more version -/

theorem Resolves.nil : Resolves ([] : List (Version α)) [] :=
  ⟨.nil, fun _ _ wins => absurd wins.member List.not_mem_nil, by simp⟩

theorem Wins.of_append {versions : List (Version α)} {next v : Version α} {d : Day}
    (wins : Wins (versions ++ [next]) v d) (member : v ∈ versions) : Wins versions v d :=
  ⟨member, wins.mem, fun w memberW => wins.highest w (List.mem_append_left _ memberW)⟩

theorem Wins.append {versions : List (Version α)} {next v : Version α} {d : Day}
    (wins : Wins versions v d)
    (below : d ∈ next.validity → next.validity.priority ≤ v.validity.priority) :
    Wins (versions ++ [next]) v d := by
  refine ⟨List.mem_append_left _ wins.member, wins.mem, fun w memberW memW => ?_⟩
  cases List.mem_append.mp memberW with
  | inl memberW => exact wins.highest w memberW memW
  | inr memberW =>
    obtain rfl := List.mem_singleton.mp memberW
    exact below memW

/-- A version that covers no day changes nothing. -/
theorem Resolves.append_empty {versions : List (Version α)} {timeline : Timeline α}
    (resolves : Resolves versions timeline) {next : Version α}
    (empty : ¬ next.validity.CoversSomeDay) : Resolves (versions ++ [next]) timeline := by
  have outside : ∀ d, d ∉ next.validity := fun d mem =>
    empty (Validity.coversSomeDay_of_mem mem)
  refine resolves.of_wins_iff fun v d => ?_
  refine ⟨fun wins => wins.append fun mem => absurd mem (outside d), fun wins => wins.of_append ?_⟩
  cases List.mem_append.mp wins.member with
  | inl member => exact member
  | inr member => exact absurd (List.mem_singleton.mp member ▸ wins.mem) (outside d)

/-- What a splice needs of the version: its priority is the highest so far, and it clashes with
no version so far. -/
structure IsNext (versions : List (Version α)) (next : Version α) : Prop where
  covers : next.validity.CoversSomeDay
  highest : ∀ v ∈ versions, v.validity.priority ≤ next.validity.priority
  clashFree : ∀ v ∈ versions, ¬ v.Clashes next

theorem IsNext.wins {versions : List (Version α)} {next : Version α} (isNext : IsNext versions next)
    {d : Day} (mem : d ∈ next.validity) : Wins (versions ++ [next]) next d := by
  refine ⟨by simp, mem, fun v member _ => ?_⟩
  cases List.mem_append.mp member with
  | inl member => exact isNext.highest v member
  | inr member =>
    exact Int.le_of_eq (congrArg (·.validity.priority.value) (List.mem_singleton.mp member))

/-- On the days of the next version no version so far wins. -/
theorem IsNext.not_wins {versions : List (Version α)} {next v : Version α}
    (isNext : IsNext versions next) (member : v ∈ versions) {d : Day} (mem : d ∈ next.validity) :
    ¬ Wins (versions ++ [next]) v d := by
  intro wins
  have below := wins.highest next (by simp) mem
  exact isNext.clashFree v member
    ⟨Priority.eq_of_le_of_le (isNext.highest v member) below, d, wins.mem, mem⟩

/-- A run loses just the days of the next version, so a part that is left of it on one side is
a run again: it ends where the run did, or where the next version starts. -/
theorem IsNext.isRun_partBefore {versions : List (Version α)} {next v f part : Version α}
    (isNext : IsNext versions next) (run : IsRun versions v f)
    (isPart : f.partBefore? next.validity = some part) : IsRun (versions ++ [next]) v part := by
  obtain ⟨owner, priority, start, startsBefore, last⟩ :=
    (Version.partBefore?_eq_some_iff run.covers).mp isPart
  have covers := run.covers
  have nextCovers := isNext.covers
  have member := (run.wins _ (Validity.mem_start covers)).member
  simp only [Validity.CoversSomeDay, Day.le_def, Day.lt_def] at covers nextCovers startsBefore
  refine ⟨owner.trans run.owner, priority.trans run.priority, ?_, fun d mem => ?_,
    fun d number wins => ?_, fun d number wins => ?_⟩
  · rw [Validity.CoversSomeDay, Day.le_def, start]
    omega
  · simp only [Validity.mem_def, Day.le_def, start] at mem
    refine (run.wins d (Validity.mem_def.mpr ?_)).append fun memNext => ?_
    · simp only [Day.le_def]
      omega
    · have startLe := memNext.1
      rw [Day.le_def] at startLe
      omega
  · exact run.before d (start ▸ number) (wins.of_append member)
  -- The day after the part is the one after the run, or the first day of the next version.
  · by_cases whole : f.validity.last.number < next.validity.start.number
    · exact run.after d (by omega) (wins.of_append member)
    · refine isNext.not_wins member (Validity.mem_def.mpr ?_) wins
      simp only [Day.le_def]
      omega

theorem IsNext.isRun_partAfter {versions : List (Version α)} {next v f part : Version α}
    (isNext : IsNext versions next) (run : IsRun versions v f)
    (isPart : f.partAfter? next.validity = some part) : IsRun (versions ++ [next]) v part := by
  obtain ⟨owner, priority, last, endsAfter, start⟩ :=
    (Version.partAfter?_eq_some_iff run.covers).mp isPart
  have covers := run.covers
  have nextCovers := isNext.covers
  have member := (run.wins _ (Validity.mem_start covers)).member
  simp only [Validity.CoversSomeDay, Day.le_def, Day.lt_def] at covers nextCovers endsAfter
  refine ⟨owner.trans run.owner, priority.trans run.priority, ?_, fun d mem => ?_,
    fun d number wins => ?_, fun d number wins => ?_⟩
  · rw [Validity.CoversSomeDay, Day.le_def, last]
    omega
  · simp only [Validity.mem_def, Day.le_def, last] at mem
    refine (run.wins d (Validity.mem_def.mpr ?_)).append fun memNext => ?_
    · simp only [Day.le_def]
      omega
    · have lastGe := memNext.2
      rw [Day.le_def] at lastGe
      omega
  -- The day before the part is the one before the run, or the last day of the next version.
  · by_cases whole : next.validity.last.number < f.validity.start.number
    · exact run.before d (by omega) (wins.of_append member)
    · refine isNext.not_wins member (Validity.mem_def.mpr ?_) wins
      simp only [Day.le_def]
      omega
  · exact run.after d (last ▸ number) (wins.of_append member)

theorem IsNext.isRun_next {versions : List (Version α)} {next : Version α}
    (isNext : IsNext versions next) : IsRun (versions ++ [next]) next next :=
  isRun_self isNext.covers fun _ mem => isNext.wins mem

/-- The overlay of the next version resolves the versions with it. -/
theorem Resolves.overlay {versions : List (Version α)} {timeline : Timeline α}
    (resolves : Resolves versions timeline) {next : Version α} (isNext : IsNext versions next) :
    Resolves (versions ++ [next]) (timeline.overlay next) := by
  refine ⟨resolves.flat.overlay isNext.covers, fun v d wins => ?_, fun f member => ?_⟩
  -- A day is won by the next version, or it lies in a part of the fragment that held it before.
  · by_cases mem : d ∈ next.validity
    · exact ⟨next, mem_overlay.mpr (.inl rfl), mem⟩
    · have memberV : v ∈ versions := by
        cases List.mem_append.mp wins.member with
        | inl member => exact member
        | inr member => exact absurd (List.mem_singleton.mp member ▸ wins.mem) mem
      obtain ⟨f, memberF, memF⟩ := resolves.covered v d (wins.of_append memberV)
      obtain ⟨part, isPart, memPart⟩ := Version.exists_part_of_mem memF mem
      exact ⟨part, mem_overlay.mpr (.inr ⟨f, memberF, isPart⟩), memPart⟩
  · rcases mem_overlay.mp member with rfl | ⟨existing, memberE, isPart | isPart⟩
    · exact ⟨f, isNext.isRun_next⟩
    · obtain ⟨v, run⟩ := resolves.run existing memberE
      exact ⟨v, isNext.isRun_partBefore run isPart⟩
    · obtain ⟨v, run⟩ := resolves.run existing memberE
      exact ⟨v, isNext.isRun_partAfter run isPart⟩

end Timeline

end QuayTimeline
