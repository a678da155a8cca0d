import QuayTimeline.Command.Inspect
import QuayTimeline.Proofs.Flattening.Instants

/-! # Timelines shown and stop places flattened

The command that shows timelines does not copy quays, so it needs no zone. It shows what the quays
of a flattened stop place carry, and fails as flattening does, except for the days that clocks in
the zone do not show. -/

namespace QuayTimeline

open Timeline

namespace Inspect

/-! ## The lines of quays -/

/-- The items that a quay holds under a key, one after another. -/
def itemText (q : Quay) (key : String) : List Char :=
  (KeyedRecord.items q key).flatMap String.toList

def codeLine (code : String) : List Char :=
  "  ".toList ++ code.toList ++ ['\n']

/-- The line for what a quay holds under the three keys, and the source that it is a copy of. -/
def quayLine (q source : Quay) : List Char :=
  "    ".toList ++ itemText q VersionKeys.start ++ " .. ".toList
    ++ padded 10 (itemText q VersionKeys.last) ++ "  priority ".toList
    ++ itemText q VersionKeys.priority ++ "  ".toList
    ++ ((source.netexId.map (·.text)).getD "-").toList ++ ['\n']

/-- The line of a quay, after the line of its public code. -/
def quayRow (q source : Quay) : List Char × List Char :=
  (codeLine ((q.publicCode.map (·.text)).getD ""), quayLine q source)

/-- Lines under headings. A heading that is repeated on neighbouring lines is shown once. -/
def listing (previous : List Char) : List (List Char × List Char) → List Char
  | [] => []
  | (heading, line) :: rows =>
    (if heading = previous then [] else heading) ++ line ++ listing heading rows

def noQuays : List Char :=
  "  (no flattenable quays)\n".toList

/-- What is shown of rows, or that there are none. -/
def listingOrNone (rows : List (List Char × List Char)) : List Char :=
  if rows = [] then noQuays else listing [] rows

/-- The line of a fragment, after the line of its public code. -/
def fragmentRow (e : PublicCode × Version PlacedQuay) : List Char × List Char :=
  (codeLine e.1.text, fragmentLine e.2)

theorem listing_append_of_heading (heading : List Char) (lines : List (List Char))
    (rows : List (List Char × List Char)) :
    listing heading (lines.map (heading, ·) ++ rows) = lines.flatten ++ listing heading rows := by
  induction lines with
  | nil => rfl
  | cons line lines ih =>
    rw [List.map_cons, List.cons_append, listing, if_pos rfl, ih, List.nil_append,
      List.flatten_cons, List.append_assoc]

theorem codeLine_injective {code other : String} (same : codeLine code = codeLine other) :
    code = other :=
  String.toList_inj.mp (List.append_cancel_left (List.append_cancel_right same))

/-! ## The lines of groups -/

theorem snd_writeGroups (groups : List QuayGroup) :
    (writeGroups groups).2 = (fun _ => ()) <$> groups.mapM QuayGroup.fragments := by
  induction groups with
  | nil => rfl
  | cons group groups ih =>
    rw [writeGroups, List.mapM_cons, QuayGroup.fragments]
    cases group.timeline with
    | error error => rfl
    | ok timeline =>
      change (writeGroups groups).2 = _
      rw [ih]
      cases groups.mapM QuayGroup.fragments <;> rfl

/-- Groups in the order of their codes are shown as one listing of their fragments. -/
theorem fst_writeGroups {groups : List QuayGroup}
    {parts : List (List (PublicCode × Version PlacedQuay))}
    (resolved : List.Forall₂ (fun group part => group.fragments = .ok part) groups parts)
    (notEmpty : ∀ part ∈ parts, part ≠ [])
    (ordered : groups.Pairwise fun g h => g.publicCode < h.publicCode) {previous : List Char}
    (new : ∀ group ∈ groups, codeLine group.publicCode.text ≠ previous) :
    (writeGroups groups).1 = listing previous (parts.flatten.map fragmentRow) := by
  induction resolved generalizing previous with
  | nil => rfl
  | @cons group part rest parts first _ ih =>
    obtain ⟨notEmptyPart, notEmptyRest⟩ := List.forall_mem_cons.mp notEmpty
    obtain ⟨below, orderedRest⟩ := List.pairwise_cons.mp ordered
    obtain ⟨newGroup, -⟩ := List.forall_mem_cons.mp new
    have text : (writeGroups rest).1 =
        listing (codeLine group.publicCode.text) (parts.flatten.map fragmentRow) := by
      refine ih notEmptyRest orderedRest fun other member same => ?_
      -- The later codes are other ones, so their lines are new after the line of this code.
      have less := below other member
      rw [Identifier.ext (codeLine_injective same)] at less
      exact Identifier.lt_irrefl _ less
    obtain ⟨timeline, built, ⟨rfl⟩⟩ := bind_eq_ok_iff.mp first
    cases timeline with
    | nil => exact absurd rfl notEmptyPart
    | cons f timeline =>
      have rows : (timeline.map (group.publicCode, ·)).map fragmentRow =
          (timeline.map fragmentLine).map (codeLine group.publicCode.text, ·) := by
        simp only [List.map_map, Function.comp_def, fragmentRow]
      simp only [writeGroups, built, List.flatten_cons, List.map_cons, List.map_append,
        List.cons_append, rows]
      rw [fragmentRow, listing, if_neg newGroup, listing_append_of_heading, text, codeLine,
        List.flatMap_cons, List.flatMap_def]
      simp only [List.append_assoc, List.cons_append, List.nil_append]

/-! ## The lines of a stop place -/

/-- The first line, which names the stop place. -/
def labelLine (place : StopPlace) : List Char :=
  place.label.toList ++ ['\n']

variable {rules : FlatteningRules} {place : StopPlace}

/-- A stop place is shown in full just when its quays are resolved. -/
theorem snd_writePlace (rules : FlatteningRules) (place : StopPlace) :
    (writePlace rules place).2 = (fun _ => ()) <$> fragmentsOf rules place.quays := by
  rw [writePlace, fragmentsOf]
  cases QuayGroup.ofQuays rules place.quays with
  | error error => rfl
  | ok groups =>
    have result := snd_writeGroups groups
    cases groups with
    | nil => rfl
    | cons group groups =>
      change (writeGroups (group :: groups)).2 = _
      rw [result, ok_bind]
      cases (group :: groups).mapM QuayGroup.fragments <;> rfl

/-- What is shown of a stop place are its fragments. -/
theorem fst_writePlace {fragments : List (PublicCode × Version PlacedQuay)}
    (resolved : fragmentsOf rules place.quays = .ok fragments) :
    (writePlace rules place).1 =
      labelLine place ++ listingOrNone (fragments.map fragmentRow) := by
  obtain ⟨versions, parts, read, taken, rfl⟩ := fragmentsOf_eq_ok_iff.mp resolved
  have grouped : QuayGroup.ofQuays rules place.quays = .ok (QuayGroup.byPublicCode versions) := by
    rw [QuayGroup.ofQuays, read]
    rfl
  have notEmpty : ∀ part ∈ parts, part ≠ [] := by
    intro part member
    obtain ⟨group, memberGroup, resolvedGroup⟩ := (mem_of_mapM_eq_ok taken).mp member
    exact QuayGroup.fragments_ne_nil read memberGroup resolvedGroup
  have related := mapM_eq_ok_iff.mp taken
  have ordered := QuayGroup.pairwise_byPublicCode versions
  rw [writePlace, grouped]
  cases groups : QuayGroup.byPublicCode versions with
  | nil =>
    rw [groups, List.forall₂_nil_left_iff] at related
    rw [related]
    simp only [labelLine, List.append_assoc]
    rfl
  | cons group rest =>
    rw [groups] at related ordered
    -- The line of a code is never empty, so the first one is new.
    have text : (writeGroups (group :: rest)).1 = listing [] (parts.flatten.map fragmentRow) :=
      fst_writeGroups related notEmpty ordered fun other _ same => by cases same
    have rows : parts.flatten.map fragmentRow ≠ [] := by
      obtain ⟨part, parts, -, -, rfl⟩ := List.forall₂_cons_left_iff.mp related
      intro empty
      rw [List.map_eq_nil_iff, List.flatten_eq_nil_iff] at empty
      exact notEmpty part List.mem_cons_self (empty part List.mem_cons_self)
    rw [listingOrNone, if_neg rows, ← text]
    rfl

theorem listingOrNone_eq_noQuays_iff {fragments : List (PublicCode × Version PlacedQuay)} :
    listingOrNone (fragments.map fragmentRow) = noQuays ↔ fragments = [] := by
  constructor
  · intro same
    cases fragments with
    | nil => rfl
    | cons e rest =>
      -- A listing has at least two lines.
      have first : 0 < (codeLine e.1.text).count '\n' :=
        List.count_pos_iff.mpr (List.mem_append_right _ List.mem_cons_self)
      have second : 0 < (fragmentLine e.2).count '\n' :=
        List.count_pos_iff.mpr (List.mem_append_right _ List.mem_cons_self)
      have one : noQuays.count '\n' = 1 := by decide
      have new : codeLine e.1.text ≠ [] := fun empty => by cases empty
      rw [listingOrNone, if_neg (by simp), List.map_cons, fragmentRow, listing, if_neg new] at same
      rw [← same, List.count_append, List.count_append] at one
      omega
  · rintro rfl
    rfl

/-! ## Beside a flattened stop place -/

theorem itemText_start (q : Quay) (v : Validity) (range : ValidBetween) :
    itemText (q.copyFor v range) VersionKeys.start = v.start.text := by
  rw [itemText, KeyedRecord.items, Quay.value?_start_copyFor]
  change [toString v.start].flatMap String.toList = v.start.text
  rw [List.flatMap_singleton]
  exact String.toList_ofList

theorem itemText_last (q : Quay) (v : Validity) (range : ValidBetween) :
    itemText (q.copyFor v range) VersionKeys.last = (v.end?.map Day.text).getD [] := by
  rw [itemText, KeyedRecord.items, Quay.value?_last_copyFor]
  cases v.end? with
  | none => rfl
  | some last =>
    change [toString last].flatMap String.toList = last.text
    rw [List.flatMap_singleton]
    exact String.toList_ofList

theorem itemText_priority (q : Quay) (v : Validity) (range : ValidBetween) :
    itemText (q.copyFor v range) VersionKeys.priority = v.priority.text := by
  rw [itemText, KeyedRecord.items, Quay.value?_priority_copyFor]
  change [toString v.priority].flatMap String.toList = v.priority.text
  rw [List.flatMap_singleton]
  exact String.toList_ofList

/-- What a copy carries is what is shown of its fragment. -/
theorem quayRow_of_copyOf {zone : Zone} {e : PublicCode × Version PlacedQuay} {q : Quay}
    (copied : copyOf zone e = .ok q) (named : q.publicCode = some e.1) :
    quayRow q e.2.owner.quay = fragmentRow e := by
  obtain ⟨range, -, rfl⟩ := Quay.withValidity_eq_ok_iff.mp copied
  have line : quayLine (e.2.owner.quay.copyFor e.2.validity range) e.2.owner.quay =
      fragmentLine e.2 := by
    unfold quayLine fragmentLine
    rw [itemText_start, itemText_last, itemText_priority]
  rw [quayRow, named, line, fragmentRow, Option.map_some, Option.getD_some]

/-- The copies of fragments are shown as the fragments are, each with the quay it is taken from. -/
theorem exists_sources {zone : Zone} {quays copies : List Quay}
    {fragments : List (PublicCode × Version PlacedQuay)}
    (resolved : fragmentsOf rules quays = .ok fragments)
    (copied : fragments.mapM (copyOf zone) = .ok copies) : ∃ sources,
      List.Forall₂ (fun q p => ∃ code v w, q.IsTakenFrom rules quays code v w ∧ w.owner.quay = p)
        copies sources ∧
      List.zipWith quayRow copies sources = fragments.map fragmentRow := by
  have each : ∀ e ∈ fragments, ∀ q, copyOf zone e = .ok q →
      (∃ w, q.IsTakenFrom rules quays e.1 e.2.validity w ∧ w.owner.quay = e.2.owner.quay) ∧
        quayRow q e.2.owner.quay = fragmentRow e := fun e member q copied =>
    ⟨exists_isTakenFrom resolved member copied,
      quayRow_of_copyOf copied (isVersion_of_copyOf resolved member copied).publicCode⟩
  have related := mapM_eq_ok_iff.mp copied
  clear resolved copied
  induction related with
  | nil => exact ⟨[], .nil, rfl⟩
  | @cons e q fragments copies first _ ih =>
    obtain ⟨here, later⟩ := List.forall_mem_cons.mp each
    obtain ⟨⟨w, taken, owner⟩, row⟩ := here q first
    obtain ⟨sources, takenRest, rows⟩ := ih later
    refine ⟨e.2.owner.quay :: sources, .cons ⟨_, _, w, taken, owner⟩ takenRest, ?_⟩
    rw [List.zipWith_cons_cons, row, rows, List.map_cons]

/-- There are no fragments just when every quay that is imported is a draft. -/
theorem eq_nil_iff_of_fragmentsOf {quays : List Quay}
    {fragments : List (PublicCode × Version PlacedQuay)}
    (resolved : fragmentsOf rules quays = .ok fragments) :
    fragments = [] ↔ ¬ ∃ q ∈ quays, ∃ v, rules.acceptsSource q.sourceType? = true ∧
      VersionKeys.validity q = .ok v ∧ rules.isDraft v.priority = false := by
  constructor
  · rintro rfl ⟨q, member, v, accepted, validity, published⟩
    obtain ⟨versions, parts, read, -, -⟩ := fragmentsOf_eq_ok_iff.mp resolved
    obtain ⟨w, validityAgain, named⟩ :=
      QuayGroup.exists_versionsOf_eq_ok_iff.mp ⟨versions, read⟩ q member accepted
    obtain rfl : v = w := Except.ok.inj (validity.symm.trans validityAgain)
    obtain ⟨code, named⟩ := named published
    obtain ⟨i, placed⟩ := List.mem_iff_getElem?.mp member
    obtain ⟨f, memberF, -⟩ := exists_fragment_of_version (w := ⟨⟨q, i⟩, v⟩) resolved
      ⟨placed, accepted, validity, published, named⟩
      (Validity.mem_start (VersionKeys.coversSomeDay_of_validity validity))
    cases memberF
  · intro none
    refine List.eq_nil_iff_forall_not_mem.mpr fun e member => none ?_
    obtain ⟨w, original, -⟩ := exists_version_of_mem resolved member
      (Validity.mem_start ((inOrder_fragmentsOf resolved).covers e member))
    exact ⟨_, List.mem_of_getElem? original.placed, _, original.version.accepted,
      original.version.validity, original.version.published⟩

/-- When a stop place is flattened, it is shown: for each quay of the result what it carries and
what it is a copy of, or that there is no quay to flatten. When it is not flattened, it is not shown
for the same reason, or clocks in the zone do not show some day, which the lines do not need. -/
theorem writePlace_beside_flatten (rules : FlatteningRules) (zone : Zone) (place : StopPlace) :
    (∀ result, place.flatten rules zone = .ok result →
      (writePlace rules place).2 = .ok () ∧
      ((∃ q ∈ place.quays, rules.acceptsSource q.sourceType? = true) → ∃ sources,
        List.Forall₂ (fun q p => ∃ code v w,
          q.IsTakenFrom rules place.quays code v w ∧ w.owner.quay = p) result.quays sources ∧
        (writePlace rules place).1 =
          labelLine place ++ listingOrNone (List.zipWith quayRow result.quays sources)) ∧
      ((writePlace rules place).1 = labelLine place ++ noQuays ↔
        ¬ ∃ q ∈ place.quays, ∃ v, rules.acceptsSource q.sourceType? = true ∧
          VersionKeys.validity q = .ok v ∧ rules.isDraft v.priority = false)) ∧
    (∀ error, place.flatten rules zone = .error error → error.hiddenDay? = none →
      (writePlace rules place).2 = .error error) ∧
    (∀ error, (writePlace rules place).2 = .error error →
      ∃ other, place.flatten rules zone = .error other ∧
        (other = error ∨ other.hiddenDay?.isSome)) := by
  have follows := StopPlace.follows_fragmentsOf rules zone place
  rw [snd_writePlace]
  refine ⟨fun result flattened => ?_, fun error failed shown => ?_, fun error failed => ?_⟩
  · obtain ⟨fragments, resolved, -⟩ := follows.exists_of_ok flattened
    rw [fst_writePlace resolved, resolved]
    refine ⟨rfl, fun accepted => ?_, ?_⟩
    · obtain ⟨_, quays, resolvedAgain, copied, rfl⟩ :=
        (StopPlace.flatten_eq_ok_iff (List.any_eq_true.mpr accepted)).mp flattened
      obtain rfl := Except.ok.inj (resolved.symm.trans resolvedAgain)
      obtain ⟨sources, taken, rows⟩ := exists_sources resolved copied
      exact ⟨sources, taken, by rw [rows]⟩
    · rw [List.append_cancel_left_eq, listingOrNone_eq_noQuays_iff]
      exact eq_nil_iff_of_fragmentsOf resolved
  · obtain hidden | ⟨_, resolved, rfl⟩ := follows.own_or_exists_of_error failed
    · rw [shown] at hidden
      cases hidden
    · rw [resolved]
      rfl
  · cases resolved : fragmentsOf rules place.quays with
    | ok fragments =>
      rw [resolved] at failed
      cases failed
    | error first =>
      rw [resolved] at failed
      cases failed
      obtain ⟨other, failed, same | hidden⟩ := follows.exists_error_of_error resolved
      · exact ⟨other, failed, .inl same.symm⟩
      · exact ⟨other, failed, .inr hidden⟩

/-- In Chile two quays stand for the two versions, and each of them has its line. -/
theorem writePlace_beside_flatten_novemberPlace :
    ∃ result sources, novemberPlace.flatten .default ZoneTable.santiago = .ok result ∧
      result.quays.length = 2 ∧
      List.Forall₂ (fun q p => ∃ code v w,
        q.IsTakenFrom .default novemberPlace.quays code v w ∧ w.owner.quay = p)
        result.quays sources ∧
      labelLine novemberPlace ++ listingOrNone (List.zipWith quayRow result.quays sources) =
        ("<unnamed stop place>\n  H1\n" ++ "    2010-01-01 .. 2010-11-06  priority 10  -\n" ++
          "    2010-11-07 ..             priority 20  -\n").toList := by
  have shown : ∀ v ∈ [beforeNovember7, fromNovember7],
      (ZoneTable.santiago.rangeOf? v).isSome := by decide +kernel
  obtain ⟨range, later, -, -, flattened⟩ := StopPlace.exists_flatten_novemberPlace shown
  obtain ⟨-, rows, -⟩ :=
    (writePlace_beside_flatten .default ZoneTable.santiago novemberPlace).1 _ flattened
  obtain ⟨sources, taken, text⟩ := rows ⟨_, List.mem_cons_self, by decide⟩
  refine ⟨_, sources, flattened, rfl, taken, ?_⟩
  rw [← text, fst_writePlace fragmentsOf_novemberPlace]
  decide +kernel

end Inspect

end QuayTimeline
