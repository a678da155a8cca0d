import QuayTimeline.Calendar.ZoneTable
import QuayTimeline.Proofs.Flattening.ByDay
import QuayTimeline.Proofs.Flattening.Repeat
import QuayTimeline.Proofs.StopPlaceLines

/-! # The command that flattens, run on its output

A run that succeeds writes a line for each stop place. These lines are read as the flattened stop
places, and each of them flattens to itself in the same zone, so a second run writes the same lines
and counts as many. -/

namespace QuayTimeline

open StopPlaceLines (linesText)
open CommandLine (encode)

theorem flattenItem_eq_ok_iff {ε : Type} {rules : FlatteningRules} {zone : Zone}
    {item : Except ε StopPlace} {result : StopPlace} :
    flattenItem rules zone item = .ok result ↔
      ∃ place, item = .ok place ∧ place.flatten rules zone = .ok result := by
  cases item with
  | error cause => exact ⟨fun same => (nomatch same), fun ⟨_, same, _⟩ => (nomatch same)⟩
  | ok place =>
    rw [flattenItem, mapError_eq_ok_iff]
    exact ⟨fun same => ⟨place, rfl, same⟩, fun ⟨_, rfl, same⟩ => same⟩

namespace Flatten

variable {rules : FlatteningRules} {zone : Zone}

/-- A run succeeds when all items are stop places that can be flattened. These are written line by
line. -/
theorem writeItems_eq_ok_iff {items : List (Except LineError StopPlace)} {count n : Nat}
    {out : List Char} :
    writeItems rules zone count items = ⟨out, .ok n⟩ ↔
      ∃ places, items.mapM (flattenItem rules zone) = .ok places ∧ out = linesText places ∧
        n = count + places.length := by
  induction items generalizing count n out with
  | nil =>
    constructor
    · intro written
      cases written
      exact ⟨[], rfl, rfl, rfl⟩
    · rintro ⟨places, ⟨rfl⟩, rfl, rfl⟩
      rfl
  | cons item items ih =>
    rw [writeItems, List.mapM_cons]
    cases flattenItem rules zone item with
    | error cause =>
      constructor
      · intro written
        cases written
      · rintro ⟨places, flattened, -⟩
        cases flattened
    | ok place =>
      constructor
      · intro written
        cases rest : writeItems rules zone (count + 1) items with
        | mk text result =>
          rw [rest] at written
          cases written
          obtain ⟨places, flattened, rfl, rfl⟩ := ih.mp rest
          refine ⟨place :: places, ?_, (StopPlaceLines.linesText_cons place places).symm, ?_⟩
          · rw [ok_bind, flattened]
            rfl
          · rw [List.length_cons]
            omega
      · rintro ⟨_, flattened, rfl, rfl⟩
        rw [ok_bind] at flattened
        obtain ⟨places, others, ⟨rfl⟩⟩ := bind_eq_ok_iff.mp flattened
        have total : count + (place :: places).length = count + 1 + places.length := by
          rw [List.length_cons]
          omega
        rw [total, ih.mpr ⟨places, others, rfl, rfl⟩, StopPlaceLines.linesText_cons]

/-- What a run writes, a run on that writes again. -/
theorem writeItems_writeItems {input : Bytes}
    (integers : ∀ place, .ok place ∈ StopPlaceLines.read input → place.HoldsIntegers)
    {out : List Char} {n : Nat}
    (written : writeItems rules zone 0 (StopPlaceLines.read input) = ⟨out, .ok n⟩) :
    writeItems rules zone 0 (StopPlaceLines.read (encode out)) = ⟨out, .ok n⟩ := by
  obtain ⟨places, flattened, rfl, rfl⟩ := writeItems_eq_ok_iff.mp written
  -- Whatever is written was read and flattened, which keeps it readable.
  have origin : ∀ place ∈ places, ∃ source, .ok source ∈ StopPlaceLines.read input ∧
      source.flatten rules zone = .ok place := by
    intro place member
    obtain ⟨item, memberItem, found⟩ := (mem_of_mapM_eq_ok flattened).mp member
    obtain ⟨source, rfl, same⟩ := flattenItem_eq_ok_iff.mp found
    exact ⟨source, memberItem, same⟩
  have lines : StopPlaceLines.read (encode (linesText places)) = places.map .ok := by
    refine StopPlaceLines.read_linesText (fun place member => ?_) (fun place member => ?_)
    · obtain ⟨source, memberSource, same⟩ := origin place member
      exact (StopPlaceLines.isKept_of_mem_read memberSource).flatten same
    · obtain ⟨source, memberSource, same⟩ := origin place member
      exact (integers source memberSource).flatten same
  refine writeItems_eq_ok_iff.mpr ⟨places, ?_, rfl, rfl⟩
  rw [lines]
  refine mapM_eq_ok_iff.mpr (List.forall₂_map_left_iff.mpr (List.forall₂_same.mpr ?_))
  intro place member
  obtain ⟨source, -, same⟩ := origin place member
  exact flattenItem_eq_ok_iff.mpr
    ⟨place, rfl, (StopPlace.flatten_flatten_eq_ok_iff same).mpr same⟩

/-- Flattening what was flattened changes nothing: in any zone, and so in any zone that is found for
a name, a run on the output of a run writes the same output and counts as many stop places. -/
theorem write_again {input : Bytes}
    (integers : ∀ place, .ok place ∈ StopPlaceLines.read input → place.HoldsIntegers) :
    (∀ (zone : Zone) (out : List Char) (n : Nat),
      writeItems rules zone 0 (StopPlaceLines.read input) = ⟨out, .ok n⟩ →
        writeItems rules zone 0 (StopPlaceLines.read (encode out)) = ⟨out, .ok n⟩) ∧
    ∀ (zoneNamed? : String → Option Zone) (zoneName : String) (out : List Char) (n : Nat),
      write zoneNamed? rules zoneName (StopPlaceLines.read input) = ⟨out, .ok n⟩ →
        write zoneNamed? rules zoneName (StopPlaceLines.read (encode out)) = ⟨out, .ok n⟩ := by
  refine ⟨fun zone out n written => writeItems_writeItems integers written, ?_⟩
  intro zoneNamed? zoneName out n written
  rw [write] at written ⊢
  split at written
  next => cases written
  next => exact writeItems_writeItems integers written

/-- A stop place with two versions of a quay, and an attribute of integers. -/
def placeWithLevels : StopPlace :=
  { twoVersions with others := [("levels", .array [.integer (-1), .integer 2])] }

theorem write_again_placeWithLevels :
    let input := encode (linesText [placeWithLevels])
    (∀ place, .ok place ∈ StopPlaceLines.read input → place.HoldsIntegers) ∧
    ∃ out, write Zone.named? .default "UTC" (StopPlaceLines.read input) = ⟨out, .ok 1⟩ ∧
      write Zone.named? .default "UTC" (StopPlaceLines.read (encode out)) = ⟨out, .ok 1⟩ := by
  intro input
  have bare : ∀ q ∈ placeWithLevels.quays, q.others = [] := by
    simp [placeWithLevels, twoVersions, registeredQuay, Quay.blank]
  have kept : placeWithLevels.IsKept := by
    refine ⟨⟨by decide, by decide, List.forall_mem_singleton.mpr ?_⟩, fun q member => ?_⟩
    · refine List.forall_mem_cons.mpr ⟨?_, List.forall_mem_singleton.mpr ?_⟩
      · exact ⟨by decide, by decide⟩
      · exact ⟨by decide, by decide⟩
    · exact bare q member ▸ .nil _ _
  have holdsIntegers : placeWithLevels.HoldsIntegers := by
    refine ⟨List.forall_mem_singleton.mpr (.array ?_), fun q member => ?_⟩
    · exact List.forall_mem_cons.mpr ⟨.integer _, List.forall_mem_singleton.mpr (.integer _)⟩
    · exact bare q member ▸ .nil
  have lines : StopPlaceLines.read input = [.ok placeWithLevels] :=
    StopPlaceLines.read_linesText (List.forall_mem_singleton.mpr kept)
      (List.forall_mem_singleton.mpr holdsIntegers)
  have integers : ∀ place, .ok place ∈ StopPlaceLines.read input → place.HoldsIntegers := by
    intro place member
    rw [lines, List.mem_singleton] at member
    exact Except.ok.inj member ▸ holdsIntegers
  obtain ⟨fragments, quays, resolved, copied, -⟩ := StopPlace.exists_copies_twoVersions
  have flattened : placeWithLevels.flatten .default (.fixed (.east 0)) =
      .ok { placeWithLevels with quays } :=
    (StopPlace.flatten_eq_ok_iff (by decide)).mpr ⟨_, _, resolved, copied, rfl⟩
  have written : write Zone.named? .default "UTC" (StopPlaceLines.read input) =
      ⟨linesText [{ placeWithLevels with quays }], .ok 1⟩ := by
    refine writeItems_eq_ok_iff.mpr ⟨_, ?_, rfl, rfl⟩
    rw [lines]
    exact mapM_eq_ok_iff.mpr (.cons (flattenItem_eq_ok_iff.mpr ⟨_, rfl, flattened⟩) .nil)
  exact ⟨integers, _, written, (write_again integers).2 _ _ _ _ written⟩

end Flatten

end QuayTimeline
