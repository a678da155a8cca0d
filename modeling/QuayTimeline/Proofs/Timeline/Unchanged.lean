import QuayTimeline.Proofs.Outcome
import QuayTimeline.Proofs.Timeline.Check

/-! # Versions that are left as they are

Flattening returns versions unchanged just when they are flat already, in whatever order their
priorities are. Each of them is then laid into a gap of the timeline made of those that rank lower,
and cuts nothing. Conversely, what flattening returns gives no day to two different ranges, even
where owners are compared in a way that keeps repeats; and a repeat among the versions would clash.
-/

namespace QuayTimeline.Timeline

variable {α : Type} {timeline : Timeline α} {next : Version α}

/-! ## From each fragment to the next -/

/-- Fragments that cover some day follow each other in time when each one does the one before it. -/
theorem isFlat_iff_isChain : timeline.IsFlat ↔ (∀ f ∈ timeline, f.validity.CoversSomeDay) ∧
    timeline.IsChain fun f g => f.validity.last < g.validity.start := by
  constructor
  · intro flat
    exact ⟨flat.covers, flat.ordered.isChain⟩
  · intro ⟨covers, chain⟩
    apply IsFlat.mk covers
    induction timeline with
    | nil => exact .nil
    | cons f rest ih =>
      have restCovers (g) (member : g ∈ rest) := covers g (List.mem_cons_of_mem _ member)
      have restOrdered := ih restCovers chain.of_cons
      cases rest with
      | nil => exact List.pairwise_singleton _ _
      | cons g rest =>
        have first : f.validity.last < g.validity.start := (List.isChain_cons_cons.mp chain).1
        have coversG := covers g (by simp)
        apply List.pairwise_cons.mpr ⟨_, restOrdered⟩
        intro h member
        cases member with
        | head => exact first
        | tail _ member =>
          have later := List.rel_of_pairwise_cons restOrdered member
          simp only [Validity.CoversSomeDay, Day.le_def, Day.lt_def] at first coversG later ⊢
          omega

/-! ## Into a gap -/

/-- A version that lies in a gap of a flat timeline, and cuts none of its fragments. -/
structure FitsInto (timeline : Timeline α) (next : Version α) : Prop where
  covers : next.validity.CoversSomeDay
  apart : ∀ f ∈ timeline, ¬ f.validity.Overlaps next.validity

theorem FitsInto.mem_overlay_iff (fits : FitsInto timeline next) (flat : timeline.IsFlat)
    {f : Version α} : f ∈ timeline.overlay next ↔ f = next ∨ f ∈ timeline := by
  have parts (g) (member : g ∈ timeline) : (g.partBefore? next.validity = some f ∨
      g.partAfter? next.validity = some f) ↔ g = f :=
    Version.isPart_iff_of_not_overlaps (flat.covers g member) fits.covers (fits.apart g member)
  rw [mem_overlay]
  apply or_congr_right
  constructor
  · intro ⟨g, member, isPart⟩
    exact (parts g member).mp isPart ▸ member
  · intro member
    exact ⟨f, member, (parts f member).mpr rfl⟩

/-- Into a gap a version is laid as it is, however owners are compared: no repeats arise. -/
theorem FitsInto.splice_eq_overlay [BEq α] (publicCode : String) (fits : FitsInto timeline next)
    (flat : timeline.IsFlat) : timeline.splice publicCode next = .ok (timeline.overlay next) := by
  rw [splice]
  split
  next indefinite => rw [spliceIndefinite_eq_overlay flat.covers indefinite]
  next closed =>
    obtain ⟨collected, copies, overlapping, spliced, perm⟩ :=
      exists_spliceClosed_eq publicCode flat.covers fits.covers
    have once : copies = 0 := by
      by_contra several
      obtain ⟨f, member, overlaps⟩ := overlapping several
      exact fits.apart f member overlaps
    subst once
    have starts := (flat.overlay fits.covers).starts
    rw [spliced, mergeSort_startsNoLater_eq starts perm]
    exact congrArg _ (dropRepeats_eq_self starts)

/-- Versions that lie apart are laid one by one into the gaps between those before them. -/
theorem exists_foldlM_add_of_not_overlaps [BEq α] (publicCode : String) {rest : List (Version α)}
    (flat : timeline.IsFlat) (fit : ∀ v ∈ rest, FitsInto timeline v)
    (apart : rest.Pairwise fun v w => ¬ v.validity.Overlaps w.validity) :
    ∃ result, rest.foldlM (add publicCode) timeline = .ok result ∧ result.IsFlat ∧
      ∀ f, f ∈ result ↔ f ∈ timeline ∨ f ∈ rest := by
  induction rest generalizing timeline with
  | nil => exact ⟨timeline, rfl, flat, by simp⟩
  | cons next rest ih =>
    have fits := fit next List.mem_cons_self
    have noConflict : timeline.find? (·.validity.ConflictsWith next.validity) = none := by
      simp only [List.find?_eq_none, decide_eq_true_eq]
      intro f member conflict
      exact fits.apart f member conflict.2
    have added : add publicCode timeline next = .ok (timeline.overlay next) := by
      rw [add, if_pos fits.covers, noConflict, fits.splice_eq_overlay publicCode flat]
    obtain ⟨apartNext, apartRest⟩ := List.pairwise_cons.mp apart
    have fitRest : ∀ v ∈ rest, FitsInto (timeline.overlay next) v := by
      intro v member
      have fitsV := fit v (List.mem_cons_of_mem _ member)
      apply FitsInto.mk fitsV.covers
      intro f memberF
      cases (fits.mem_overlay_iff flat).mp memberF with
      | inl same => exact same ▸ apartNext v member
      | inr memberF => exact fitsV.apart f memberF
    obtain ⟨result, folded, flatResult, mem⟩ := ih (flat.overlay fits.covers) fitRest apartRest
    refine ⟨result, ?_, flatResult, ?_⟩
    · rw [List.foldlM_cons, added, ok_bind, folded]
    · intro f
      rw [mem, fits.mem_overlay_iff flat, List.mem_cons]
      tauto

/-- Flat versions are left as they are. -/
theorem flatten_of_isFlat [BEq α] (publicCode : String) (flat : timeline.IsFlat) :
    flatten publicCode timeline = .ok timeline := by
  have perm := List.mergeSort_perm timeline Version.precedes
  have fit : ∀ v ∈ timeline.mergeSort Version.precedes, FitsInto [] v := by
    intro v member
    exact ⟨flat.covers v (perm.mem_iff.mp member), by simp⟩
  have apart := perm.symm.pairwise flat.pairwise_not_overlaps
    fun apart overlaps => apart ⟨overlaps.2, overlaps.1⟩
  obtain ⟨result, folded, flatResult, mem⟩ :=
    exists_foldlM_add_of_not_overlaps publicCode .nil fit apart
  have same : result = timeline := by
    apply flatResult.eq_of_mem_iff flat
    intro f
    rw [mem, perm.mem_iff]
    simp
  rw [flatten, folded, same]

/-! ## What flattening returns, with repeats -/

/-- Fragments in order of their starts. A day may belong to several of them if they hold on the same
days. -/
structure IsFlatUpToRepeats (timeline : Timeline α) : Prop where
  covers : ∀ f ∈ timeline, f.validity.CoversSomeDay
  starts : timeline.Pairwise fun f g => f.validity.start ≤ g.validity.start
  same : ∀ f ∈ timeline, ∀ g ∈ timeline, ∀ d, d ∈ f.validity → d ∈ g.validity →
    f.validity = g.validity

theorem IsFlatUpToRepeats.nil : IsFlatUpToRepeats ([] : Timeline α) := by
  constructor <;> simp

/-- Where no two versions clash there are no repeats, as a repeat would clash. -/
theorem IsFlatUpToRepeats.isFlat (upTo : timeline.IsFlatUpToRepeats)
    (clashFree : ClashFree timeline) : timeline.IsFlat := by
  apply IsFlat.mk upTo.covers
  apply (upTo.starts.and clashFree).imp_of_mem
  intro f g memberF memberG ⟨startsNoLater, noClash⟩
  by_contra notBefore
  have memG := Validity.mem_start (upTo.covers g memberG)
  have memF : g.validity.start ∈ f.validity := ⟨startsNoLater, Int.not_lt.mp notBefore⟩
  have same := upTo.same f memberF g memberG _ memF memG
  exact noClash ⟨congrArg (·.priority) same, _, memF, memG⟩

theorem pairwise_starts_spliceIndefinite (covers : ∀ f ∈ timeline, f.validity.CoversSomeDay)
    (starts : timeline.Pairwise fun f g => f.validity.start ≤ g.validity.start)
    (indefinite : next.validity.IsIndefinite) :
    (timeline.spliceIndefinite next).Pairwise fun f g => f.validity.start ≤ g.validity.start := by
  have kept {f part : Version α} (member : f ∈ timeline)
      (isPart : f.cutByIndefinite? next = some part) :=
    start_of_cutByIndefinite? (covers f member) indefinite isPart
  apply List.pairwise_append.mpr
  refine ⟨List.pairwise_filterMap.mpr ?_, List.pairwise_singleton _ _, ?_⟩
  · apply starts.imp_of_mem
    intro f g memberF memberG startsNoLater part isPart other isOther
    rw [(kept memberF isPart).1, (kept memberG isOther).1]
    exact startsNoLater
  · intro part member v memberV
    obtain ⟨f, memberF, isPart⟩ := List.mem_filterMap.mp member
    rw [List.mem_singleton.mp memberV]
    exact Int.le_of_lt (kept memberF isPart).2

theorem pairwise_starts_splice [BEq α] {publicCode : String} {spliced : Timeline α}
    (covers : ∀ f ∈ timeline, f.validity.CoversSomeDay)
    (starts : timeline.Pairwise fun f g => f.validity.start ≤ g.validity.start)
    (nextCovers : next.validity.CoversSomeDay)
    (returned : timeline.splice publicCode next = .ok spliced) :
    spliced.Pairwise fun f g => f.validity.start ≤ g.validity.start := by
  rw [splice] at returned
  split at returned
  next indefinite =>
    cases returned
    exact pairwise_starts_spliceIndefinite covers starts indefinite
  next closed =>
    obtain ⟨collected, copies, -, sorted, -⟩ :=
      exists_spliceClosed_eq publicCode covers nextCovers
    rw [sorted] at returned
    cases returned
    exact (pairwise_startsNoLater_mergeSort collected).sublist (dropRepeats_sublist _)

theorem IsFlatUpToRepeats.splice [BEq α] {publicCode : String} {spliced : Timeline α}
    (upTo : timeline.IsFlatUpToRepeats) (nextCovers : next.validity.CoversSomeDay)
    (returned : timeline.splice publicCode next = .ok spliced) : spliced.IsFlatUpToRepeats := by
  obtain ⟨result, succeeded, mem⟩ := exists_splice_eq_ok publicCode upTo.covers nextCovers
  obtain rfl : result = spliced := Except.ok.inj (succeeded.symm.trans returned)
  have exists_piece (f) (member : f ∈ result) :
      ∃ piece ∈ timeline.overlay next, piece.validity = f.validity :=
    mem_validities.mp ((mem _).mp (mem_validities_of_mem member))
  refine ⟨?_, pairwise_starts_splice upTo.covers upTo.starts nextCovers returned, ?_⟩
  · intro f member
    obtain ⟨piece, memberPiece, sameF⟩ := exists_piece f member
    exact sameF ▸ coversSomeDay_of_mem_overlay upTo.covers nextCovers memberPiece
  · intro f memberF g memberG d memF memG
    obtain ⟨piece, memberPiece, sameF⟩ := exists_piece f memberF
    obtain ⟨other, memberOther, sameG⟩ := exists_piece g memberG
    rw [← sameF] at memF ⊢
    rw [← sameG] at memG ⊢
    have notNext {part : Version α} (mem : d ∈ part.validity)
        (isPart : ∃ x ∈ timeline, x.partBefore? next.validity = some part ∨
          x.partAfter? next.validity = some part) : d ∉ next.validity := by
      obtain ⟨x, member, isPart⟩ := isPart
      exact (Version.mem_of_part (upTo.covers x member) isPart mem).2
    cases mem_overlay.mp memberPiece with
    | inl isNext =>
      subst isNext
      cases mem_overlay.mp memberOther with
      | inl isNext => rw [isNext]
      | inr isOther => exact absurd memF (notNext memG isOther)
    | inr isPart =>
      cases mem_overlay.mp memberOther with
      | inl isNext => exact absurd (isNext ▸ memG) (notNext memF isPart)
      | inr isOther =>
        obtain ⟨x, memberX, isPart⟩ := isPart
        obtain ⟨y, memberY, isOther⟩ := isOther
        have memX := (Version.mem_of_part (upTo.covers x memberX) isPart memF).1
        have memY := (Version.mem_of_part (upTo.covers y memberY) isOther memG).1
        exact Version.validity_eq_of_parts (upTo.covers x memberX) nextCovers
          (upTo.same x memberX y memberY d memX memY) isPart isOther memF memG

theorem IsFlatUpToRepeats.add [BEq α] {publicCode : String} {extended : Timeline α}
    (upTo : timeline.IsFlatUpToRepeats) (added : timeline.add publicCode next = .ok extended) :
    extended.IsFlatUpToRepeats := by
  rw [Timeline.add] at added
  split at added
  next covers =>
    split at added
    next => cases added
    next => exact upTo.splice covers added
  next =>
    cases added
    exact upTo

theorem IsFlatUpToRepeats.foldlM_add [BEq α] {publicCode : String} {rest : List (Version α)}
    {result : Timeline α} (upTo : timeline.IsFlatUpToRepeats)
    (folded : rest.foldlM (Timeline.add publicCode) timeline = .ok result) :
    result.IsFlatUpToRepeats := by
  apply foldlM_induction (motive := fun _ timeline => timeline.IsFlatUpToRepeats) upTo _ folded
  intro _ _ _ _ _ _ upTo added
  exact upTo.add added

/-- Flattening returns versions as they are just when each covers some day and ends before the next
one starts, whatever their priorities are and however their owners are compared. -/
theorem flatten_eq_self_iff [BEq α] (publicCode : String) (versions : List (Version α)) :
    flatten publicCode versions = .ok versions ↔
      (∀ v ∈ versions, v.validity.CoversSomeDay) ∧
        versions.IsChain fun v w => v.validity.last < w.validity.start := by
  rw [← isFlat_iff_isChain]
  constructor
  · intro flattened
    have clashFree : ClashFree versions := exists_flatten_iff_clashFree.mp ⟨versions, flattened⟩
    have upTo : IsFlatUpToRepeats versions := IsFlatUpToRepeats.nil.foldlM_add flattened
    exact upTo.isFlat clashFree
  · exact flatten_of_isFlat publicCode

end QuayTimeline.Timeline
