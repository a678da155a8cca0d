import QuayTimeline.Proofs.Timeline.Flatten

/-! # Flattening in batches

A timeline may be flattened again together with further versions, in place of the versions that it
resolves. Its fragments then are versions of their own; but a fragment is a whole run, so on each
of its days it stands for the version that it was cut from, and the days around it were lost by
that version already. So both ways lead to the same runs. -/

namespace QuayTimeline.Timeline

variable {α : Type} {earlier later : List (Version α)} {resolved : Timeline α}

theorem Wins.of_append_left {v : Version α} {d : Day} (wins : Wins (earlier ++ later) v d)
    (member : v ∈ earlier) : Wins earlier v d :=
  ⟨member, wins.mem, fun w memberW => wins.highest w (List.mem_append_left _ memberW)⟩

/-- Each fragment stands for the winner of its days. -/
theorem Resolves.priority_le (resolves : Resolves earlier resolved) {v f : Version α} {d : Day}
    (member : v ∈ earlier) (mem : d ∈ v.validity) (memberF : f ∈ resolved) (memF : d ∈ f.validity) :
    v.validity.priority ≤ f.validity.priority := by
  obtain ⟨w, run⟩ := resolves.run f memberF
  exact run.priority ▸ (run.wins d memF).highest v member mem

/-- A later version wins a day over the timeline just when it wins the day over the versions. -/
theorem Resolves.wins_later_iff (resolves : Resolves earlier resolved) {v : Version α}
    (member : v ∈ later) {d : Day} :
    Wins (resolved ++ later) v d ↔ Wins (earlier ++ later) v d := by
  constructor
  · intro wins
    refine ⟨List.mem_append_right _ member, wins.mem, fun w memberW memW => ?_⟩
    rcases List.mem_append.mp memberW with memberW | memberW
    -- An earlier version that covers the day has given it to a fragment, which ranks no lower.
    · obtain ⟨x, winsX⟩ := exists_wins memberW memW
      obtain ⟨f, memberF, memF⟩ := resolves.covered x d winsX
      exact Int.le_trans (resolves.priority_le memberW memW memberF memF)
        (wins.highest f (List.mem_append_left _ memberF) memF)
    · exact wins.highest w (List.mem_append_right _ memberW) memW
  · intro wins
    refine ⟨List.mem_append_right _ member, wins.mem, fun w memberW memW => ?_⟩
    cases List.mem_append.mp memberW with
    | inl memberW =>
      obtain ⟨x, run⟩ := resolves.run w memberW
      have winsX := run.wins d memW
      exact run.priority ▸ wins.highest x (List.mem_append_left _ winsX.member) winsX.mem
    | inr memberW => exact wins.highest w (List.mem_append_right _ memberW) memW

/-- On its own days a run wins just when its version does. -/
theorem Resolves.wins_run_iff (resolves : Resolves earlier resolved) {v f : Version α}
    (memberF : f ∈ resolved) (run : IsRun earlier v f) {d : Day} (mem : d ∈ f.validity) :
    Wins (resolved ++ later) f d ↔ Wins (earlier ++ later) v d := by
  have winsV := run.wins d mem
  constructor
  · intro wins
    refine ⟨List.mem_append_left _ winsV.member, winsV.mem, fun w memberW memW => ?_⟩
    cases List.mem_append.mp memberW with
    | inl memberW => exact winsV.highest w memberW memW
    | inr memberW => exact run.priority ▸ wins.highest w (List.mem_append_right _ memberW) memW
  · intro wins
    refine ⟨List.mem_append_left _ memberF, mem, fun w memberW memW => ?_⟩
    rcases List.mem_append.mp memberW with memberW | memberW
    -- No other fragment holds the day.
    · obtain rfl := resolves.flat.eq_of_mem memberW memberF memW mem
      exact Int.le_refl _
    · exact run.priority ▸ wins.highest w (List.mem_append_right _ memberW) memW

/-- A run among the timeline and later versions is a run of the version its fragment came from. -/
theorem Resolves.isRun_of_isRun (resolves : Resolves earlier resolved) {v f part : Version α}
    (memberF : f ∈ resolved) (run : IsRun earlier v f)
    (runPart : IsRun (resolved ++ later) f part) : IsRun (earlier ++ later) v part := by
  have winsIff : ∀ {d}, d ∈ f.validity →
      (Wins (resolved ++ later) f d ↔ Wins (earlier ++ later) v d) :=
    resolves.wins_run_iff memberF run
  have startMem := (runPart.wins _ (Validity.mem_start runPart.covers)).mem
  have lastMem := (runPart.wins _ (Validity.mem_last runPart.covers)).mem
  have vMember := (run.wins _ startMem).member
  refine ⟨runPart.owner.trans run.owner, runPart.priority.trans run.priority, runPart.covers,
    fun d mem => (winsIff (runPart.wins d mem).mem).mp (runPart.wins d mem),
    fun d number wins => ?_, fun d number wins => ?_⟩
  -- The day beside the part lies in the fragment, or right beside it as well.
  · by_cases mem : d ∈ f.validity
    · exact runPart.before d number ((winsIff mem).mpr wins)
    · refine run.before d ?_ (wins.of_append_left vMember)
      simp only [Validity.mem_def, Day.le_def] at mem startMem
      omega
  · by_cases mem : d ∈ f.validity
    · exact runPart.after d number ((winsIff mem).mpr wins)
    · refine run.after d ?_ (wins.of_append_left vMember)
      simp only [Validity.mem_def, Day.le_def] at mem lastMem
      omega

/-- What resolves a timeline and later versions resolves all versions. -/
theorem Resolves.append (resolves : Resolves earlier resolved) {timeline : Timeline α}
    (resolvesBoth : Resolves (resolved ++ later) timeline) :
    Resolves (earlier ++ later) timeline := by
  refine ⟨resolvesBoth.flat, fun v d wins => ?_, fun part memberPart => ?_⟩
  · cases List.mem_append.mp wins.member with
    | inl member =>
      obtain ⟨f, memberF, memF⟩ := resolves.covered v d (wins.of_append_left member)
      obtain ⟨x, winsX⟩ := exists_wins (List.mem_append_left later memberF) memF
      exact resolvesBoth.covered x d winsX
    | inr member => exact resolvesBoth.covered v d ((resolves.wins_later_iff member).mpr wins)
  · obtain ⟨f, runPart⟩ := resolvesBoth.run part memberPart
    have fMember := (runPart.wins _ (Validity.mem_start runPart.covers)).member
    cases List.mem_append.mp fMember with
    | inl memberF =>
      obtain ⟨v, run⟩ := resolves.run f memberF
      exact ⟨v, resolves.isRun_of_isRun memberF run runPart⟩
    | inr memberF => exact ⟨f, runPart.of_wins_iff fun d => resolves.wins_later_iff memberF⟩

theorem Resolves.clashFree_append (resolves : Resolves earlier resolved)
    (clashFree : ClashFree (earlier ++ later)) : ClashFree (resolved ++ later) := by
  obtain ⟨-, clashFreeLater, across⟩ := List.pairwise_append.mp clashFree
  refine List.pairwise_append.mpr ⟨?_, clashFreeLater, fun f memberF w memberW clash => ?_⟩
  · refine resolves.flat.ordered.imp fun before clash => ?_
    obtain ⟨-, d, memF, memG⟩ := clash
    exact absurd (Int.le_trans memG.1 memF.2) (Int.not_le.mpr before)
  · obtain ⟨v, run⟩ := resolves.run f memberF
    obtain ⟨priority, d, memF, memW⟩ := clash
    have wins := run.wins d memF
    exact across v wins.member w memberW ⟨run.priority ▸ priority, d, wins.mem, memW⟩

/-- Versions may be flattened in batches, each together with the timeline resolved so far. -/
theorem flatten_append_of_ok [BEq α] [ReflBEq α] {publicCode : String}
    {earlier later : List (Version α)} {timeline : Timeline α}
    (flattened : flatten publicCode (earlier ++ later) = .ok timeline) :
    ∃ resolved, flatten publicCode earlier = .ok resolved ∧
      flatten publicCode (resolved ++ later) = .ok timeline := by
  obtain ⟨clashFree, resolvesAll⟩ := flatten_eq_ok_iff.mp flattened
  have clashFreeEarlier := (List.pairwise_append.mp clashFree).1
  rcases flatten_cases publicCode earlier with ⟨resolved, first, resolves, -⟩ | ⟨_, -, clash⟩
  · refine ⟨resolved, first, ?_⟩
    have clashFreeBoth := resolves.clashFree_append clashFree
    rcases flatten_cases publicCode (resolved ++ later) with
      ⟨result, second, resolvesBoth, -⟩ | ⟨_, -, clash⟩
    · rw [second, (resolves.append resolvesBoth).unique clashFree resolvesAll]
    · exact absurd clashFreeBoth clash
  · exact absurd clashFreeEarlier clash

/-- A version that reaches over the start of the inner one, and ranks between the two. -/
def middleVersion : Version String :=
  ⟨"middle", ⟨⟨2, by decide, by decide⟩, ⟨8, by decide, by decide⟩, ⟨15, by decide, by decide⟩⟩⟩

/-- The middle version comes last, but is spliced below the inner one and cuts two fragments. -/
theorem flatten_append_of_ok_middleVersion :
    ∃ timeline, flatten "H1" (nestedVersions ++ [middleVersion]) = .ok timeline ∧
      timeline.length = 5 ∧ ∃ resolved, flatten "H1" nestedVersions = .ok resolved ∧
        flatten "H1" (resolved ++ [middleVersion]) = .ok timeline :=
  ⟨_, by cbv, rfl, flatten_append_of_ok (by cbv)⟩

end QuayTimeline.Timeline
