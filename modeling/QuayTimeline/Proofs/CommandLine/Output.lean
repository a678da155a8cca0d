import QuayTimeline.Proofs.Command.LineByLine
import QuayTimeline.Proofs.CommandLine.World

/-! # The output file

What is flattened collects in a temporary file under a fresh name, next to the output file, and
takes its place in one move when all of it is there. Until then the temporary file is the only
change, and it goes when the run fails, whatever was refused. So a run changes the output as a whole
or leaves all files as they were. -/

namespace QuayTimeline

open FilePath (parent)
open StopPlaceLines (linesText physicalLines)
open CommandLine (encode)

namespace World

variable {world : World} {directory names spool : List String}

/-! ## Temporary files -/

/-- No file goes by some names. -/
def Lacks (world : World) (names : List String) : Prop :=
  ∀ f ∈ world.files, f.1 ≠ names

/-- The names of a temporary file in a directory. -/
def spoolIn (world : World) (directory : List String) : List String :=
  directory ++ [world.files.freshName]

theorem lacks_spoolIn (world : World) (directory : List String) :
    world.Lacks (world.spoolIn directory) := by
  intro f member same
  apply FileTree.freshName_not_mem member
  rw [same, spoolIn]
  exact List.mem_append_right _ (List.mem_singleton_self _)

theorem createSpool_of_isOpen {path : String} (located : world.locate? path = some directory)
    (isOpen : world.isOpen directory = true) :
    world.createSpool path =
      (some (world.spoolIn directory), world.put (world.spoolIn directory) []) := by
  rw [createSpool, located]
  exact if_pos isOpen

theorem append_put (lacks : world.Lacks spool) (content more : Bytes) :
    (world.put spool content).append spool more = world.put spool (content ++ more) := by
  have held : (world.put spool content).files.file? spool = some content :=
    FileTree.file?_put_self
  rw [append, held, Option.getD_some, put, put, FileTree.put_put lacks]

/-- The world without the file that names lead to. -/
def erase (world : World) (names : List String) : World :=
  { world with files := world.files.erase names }

theorem erase_put (lacks : world.Lacks spool) (content : Bytes) :
    (world.put spool content).erase spool = world := by
  rw [erase, put, FileTree.erase_put lacks]

/-- A temporary file is moved to where the path led before it was there. -/
theorem moveSpool_put (isOpen : world.isOpen directory = true) (content : Bytes) {path : String}
    (found : world.target? path = some names) :
    (world.put (world.spoolIn directory) content).moveSpool (world.spoolIn directory) path =
      (true, world.put names content) := by
  have there : (world.put (world.spoolIn directory) content).files.file?
      (world.spoolIn directory) = some content := FileTree.file?_put_self
  have foundStill : (world.put (world.spoolIn directory) content).target? path = some names :=
    (target?_put isOpen _ content path).trans found
  have gone := erase_put (world.lacks_spoolIn directory) content
  rw [moveSpool, there, foundStill]
  exact congrArg (fun next : World => (true, next.put names content)) gone

theorem refusals_ne_nil (refused : world.refusesNext = true) : world.refusals ≠ [] := by
  intro none
  rw [refusesNext, none] at refused
  cases refused

end World

namespace CommandLine

/-! ## Requests on a world with a temporary file -/

section Requests

variable {α β : Type} {ask : StateM World α} {a b : α} {world : World} {spool : List String}

theorem run_bind_of_run {after : World} (ran : ask.run world = (a, after))
    (next : α → StateM World β) : (ask >>= next).run world = (next a).run after := by
  rw [StateT.run_bind, ran]
  rfl

/-- What follows a request that may be refused goes on after the refusal or after the grant. -/
theorem run_bind_of_ite {refused : Bool} {afterRefusal afterGrant : World}
    (ran : ask.run world = if refused then (a, afterRefusal) else (b, afterGrant))
    (next : α → StateM World β) :
    (ask >>= next).run world =
      if refused then (next a).run afterRefusal else (next b).run afterGrant := by
  cases refused with
  | false => exact run_bind_of_run ran next
  | true => exact run_bind_of_run ran next

theorem run_writeSpool (lacks : world.Lacks spool) (content more : Bytes) :
    (Host.writeSpool spool more : StateM World _).run (world.put spool content) =
      if world.refusesNext then (false, world.asked.put spool content)
      else (true, world.asked.put spool (content ++ more)) := by
  have lacksToo : world.asked.Lacks spool := lacks
  rw [← World.append_put lacksToo]
  rfl

theorem run_flushSpool (content : Bytes) :
    (Host.flushSpool spool : StateM World _).run (world.put spool content) =
      if world.refusesNext then (false, world.asked.put spool content)
      else (true, world.asked.put spool content) :=
  rfl

theorem run_discardSpool (lacks : world.Lacks spool) (content : Bytes) :
    (Host.discardSpool spool : StateM World _).run (world.put spool content) = ((), world) :=
  congrArg (Prod.mk ()) (World.erase_put lacks content)

variable {directory names : List String} {path : String}

theorem run_createSpool (located : world.locate? path = some directory)
    (isOpen : world.isOpen directory = true) :
    (Host.createSpool path : StateM World _).run world =
      if world.refusesNext then (none, world.asked)
      else (some (world.spoolIn directory), world.asked.put (world.spoolIn directory) []) := by
  have locatedNext : world.asked.locate? path = some directory := located
  have created := World.createSpool_of_isOpen locatedNext isOpen
  change World.answer none (World.createSpool · path) world = _
  rw [World.answer, created]
  rfl

theorem run_moveSpool (isOpen : world.isOpen directory = true)
    (found : world.target? path = some names) (content : Bytes) :
    (Host.moveSpool (world.spoolIn directory) path : StateM World _).run
      (world.put (world.spoolIn directory) content) =
        if world.refusesNext then (false, world.asked.put (world.spoolIn directory) content)
        else (true, world.asked.put names content) := by
  have foundNext : world.asked.target? path = some names := found
  have isOpenNext : world.asked.isOpen directory = true := isOpen
  rw [← World.moveSpool_put isOpenNext content foundNext]
  rfl

end Requests

/-! ## Filling a temporary file -/

/-- How the filling of a temporary file ends. It succeeds only where text is written that nothing
hinders, and then the file holds this text behind what it held before. Unless something is refused,
it ends as the writing of the text does. -/
structure IsFilled (written : Written Nat) (before : Bytes) (world : World)
    (result : Except CommandError Nat) (held : Bytes) (after : World) : Prop where
  complete : ∀ n, result = .ok n → written.result = .ok n ∧ held = before ++ encode written.text
  unhindered : world.refusals = [] → result = written.result ∧ after.refusals = []
  /-- Nothing but the temporary file changes, apart from what is to come of refusals. -/
  rest : ∃ refusals, after = world.withRefusals refusals

namespace IsFilled

variable {written : Written Nat} {before held : Bytes} {world after : World}
variable {result : Except CommandError Nat}

theorem of_nothing (before : Bytes) (world : World) (result : Except CommandError Nat) :
    IsFilled ⟨[], result⟩ before world result before world where
  complete _ succeeded := by
    rw [encode_nil, List.append_nil]
    exact ⟨succeeded, rfl⟩
  unhindered none := ⟨rfl, none⟩
  rest := ⟨world.refusals, rfl⟩

theorem of_refused (refused : world.refusesNext = true) (error : CommandError) :
    IsFilled written before world (.error error) held world.asked where
  complete _ same := nomatch same
  unhindered none := absurd none (World.refusals_ne_nil refused)
  rest := ⟨world.refusals.tail, rfl⟩

theorem of_granted (filled : IsFilled written before world.asked result held after) :
    IsFilled written before world result held after where
  complete := filled.complete
  unhindered none := filled.unhindered (congrArg List.tail none)
  rest := filled.rest

theorem of_text (text : List Char)
    (filled : IsFilled written (before ++ encode text) world result held after) :
    IsFilled ⟨text ++ written.text, written.result⟩ before world result held after where
  complete n succeeded := by
    rw [encode_append, ← List.append_assoc]
    exact filled.complete n succeeded
  unhindered := filled.unhindered
  rest := filled.rest

variable (filled : IsFilled written before world result held after)
include filled

/-- What is filled stays so when one more request is granted. -/
theorem asked : IsFilled written before world result held after.asked where
  complete := filled.complete
  unhindered none :=
    have ⟨same, noneLeft⟩ := filled.unhindered none
    ⟨same, congrArg List.tail noneLeft⟩
  rest := by
    obtain ⟨refusals, rfl⟩ := filled.rest
    exact ⟨refusals.tail, rfl⟩

theorem refused (refused : after.refusesNext = true) (error : CommandError) :
    IsFilled written before world (.error error) held after.asked where
  complete _ same := nomatch same
  unhindered none := absurd (filled.unhindered none).2 (World.refusals_ne_nil refused)
  rest := filled.asked.rest

end IsFilled

/-- Items are written to a temporary file as they are written to a text, up to a refusal. -/
theorem run_spoolItems (rules : FlatteningRules) (zone : Zone) {spool : List String}
    {world : World} (lacks : world.Lacks spool) (items : List (Except LineError StopPlace))
    (count : Nat) (before : Bytes) :
    ∃ result held after, (spoolItems rules zone spool count items : StateM World _).run
        (world.put spool before) = (result, after.put spool held) ∧
      IsFilled (Flatten.writeItems rules zone count items) before world result held after := by
  -- A granted request leaves a world with other refusals, so the world is generalised.
  induction items generalizing count before world with
  | nil => exact ⟨_, _, _, rfl, .of_nothing before world (.ok count)⟩
  | cons item items ih =>
    rw [spoolItems, Flatten.writeItems]
    cases flattenItem rules zone item with
    | error cause => exact ⟨_, _, _, rfl, .of_nothing before world _⟩
    | ok place =>
      -- Two requests, for the text of the stop place and for the end of its line.
      dsimp only
      rw [run_bind_of_ite (run_writeSpool lacks _ _)]
      by_cases refused : world.refusesNext = true
      · rw [if_pos refused]
        exact ⟨_, _, _, rfl, .of_refused refused _⟩
      have lacksNext : world.asked.Lacks spool := lacks
      rw [if_neg refused, if_pos rfl, run_bind_of_ite (run_writeSpool lacksNext _ _)]
      by_cases refusedNext : world.asked.refusesNext = true
      · rw [if_pos refusedNext]
        exact ⟨_, _, _, rfl, .of_granted (.of_refused refusedNext _)⟩
      rw [if_neg refusedNext, if_pos rfl]
      have lacksThen : world.asked.asked.Lacks spool := lacks
      obtain ⟨result, held, after, ran, filled⟩ :=
        ih lacksThen (count + 1) (before ++ encode place.text ++ encode ['\n'])
      have filled : IsFilled _ before world result held after :=
        .of_text place.text (.of_text ['\n'] (.of_granted (.of_granted filled)))
      exact ⟨result, held, after, ran, filled⟩

theorem run_spoolFlattened (zoneNamed? : String → Option Zone) (settings : Settings)
    (items : List (Except LineError StopPlace)) {spool : List String} {world : World}
    (lacks : world.Lacks spool) :
    ∃ result held after, (spoolFlattened zoneNamed? settings items spool : StateM World _).run
        (world.put spool []) = (result, after.put spool held) ∧
      IsFilled (Flatten.write zoneNamed? settings.rules settings.timeZone items) [] world result
        held after := by
  rw [spoolFlattened, Flatten.write]
  cases zoneNamed? settings.timeZone with
  | none => exact ⟨_, _, _, rfl, .of_nothing [] world _⟩
  | some zone =>
    obtain ⟨result, held, after, ran, filled⟩ :=
      run_spoolItems settings.rules zone lacks items 0 []
    dsimp only
    rw [run_bind_of_run ran]
    cases result with
    | error error => exact ⟨_, _, _, rfl, filled⟩
    | ok count =>
      dsimp only
      rw [run_bind_of_ite (run_flushSpool _)]
      by_cases refused : after.refusesNext = true
      · rw [if_pos refused]
        exact ⟨_, _, _, rfl, filled.refused refused _⟩
      · rw [if_neg refused]
        exact ⟨_, _, _, rfl, filled.asked⟩

/-! ## The command on a world -/

/-- After a change of a world a path leads to a file of some bytes, and all else is as it was, apart
from what is to come of refusals. -/
structure IsReplaced (world : World) (path : String) (bytes : Bytes) (after : World) : Prop where
  own : after.readFile path = .bytes bytes
  /-- No other path leads to anything else. -/
  others : ∀ other, world.locate? other ≠ world.locate? path →
    after.readFile other = world.readFile other
  /-- No other file comes or goes. -/
  files : ∀ names, world.locate? path ≠ some names →
    after.files.file? names = world.files.file? names
  rest : after = { world with files := after.files, refusals := after.refusals }

/-- How a run ends that puts its output at a path: all of it is there, or nothing is changed, apart
from what is to come of refusals. -/
structure IsExported (written : Written Nat) (world : World) (path : String)
    (result : Except CommandError Nat) (after : World) : Prop where
  replaced : ∀ n, result = .ok n →
    written.result = .ok n ∧ IsReplaced world path (encode written.text) after
  kept : ∀ error, result = .error error → after = world.withRefusals after.refusals
  unhindered : world.refusals = [] → result = written.result

theorem IsExported.of_refused {written : Written Nat} {world : World} {path : String}
    (refused : world.refusals ≠ []) (error : CommandError) (refusals : List Bool) :
    IsExported written world path (.error error) (world.withRefusals refusals) where
  replaced _ same := nomatch same
  kept _ _ := rfl
  unhindered none := absurd none refused

theorem isReplaced_put {world : World} {path : String} {directory : List String} {name : String}
    (found : world.target? path = some (directory ++ [name]))
    (isOpen : world.isOpen directory = true) (bytes : Bytes) (refusals : List Bool) :
    IsReplaced world path bytes
      ((world.withRefusals refusals).put (directory ++ [name]) bytes) := by
  have located := (World.target?_eq_some_iff.mp found).1
  constructor
  case own => exact World.readFile_put_self isOpen name bytes found
  case others =>
    intro other notHere
    rw [located] at notHere
    exact World.readFile_put_of_ne isOpen name bytes notHere
  case files =>
    intro names notHere
    rw [located] at notHere
    exact FileTree.file?_put_of_ne fun same => notHere (congrArg some same.symm)
  case rest => rfl

theorem run_placeSpool {world : World} {directory names : List String} {path : String}
    (isOpen : world.isOpen directory = true) (found : world.target? path = some names)
    (held : Bytes) (result : Except CommandError Nat) :
    (placeSpool (world.spoolIn directory) path result : StateM World _).run
      (world.put (world.spoolIn directory) held) = match result with
        | .error error => (.error error, world)
        | .ok count =>
          if world.refusesNext then (.error (.closedOutput path), world.asked)
          else (.ok count, world.asked.put names held) := by
  have lacks := world.lacks_spoolIn directory
  cases result with
  | error error =>
    rw [placeSpool, run_bind_of_run (run_discardSpool lacks held)]
    rfl
  | ok count =>
    rw [placeSpool, run_bind_of_ite (run_moveSpool isOpen found held)]
    split
    next =>
      have lacksNext : world.asked.Lacks (world.spoolIn directory) := lacks
      rw [if_neg Bool.false_ne_true, run_bind_of_run (run_discardSpool lacksNext held)]
      rfl
    next => rfl

/-- Where the output can be put, the command puts all of it there, or nothing is changed. -/
theorem run_flattenToFile (zoneNamed? : String → Option Zone) (settings : Settings)
    (items : List (Except LineError StopPlace)) {path : String} {world : World}
    {names : List String} (found : world.target? path = some names)
    (writable : world.isOpen names.dropLast = true) :
    ∃ result after, (flattenToFile zoneNamed? settings items path : StateM World _).run world =
        (result, after) ∧
      IsExported (Flatten.write zoneNamed? settings.rules settings.timeZone items) world path result
        after := by
  obtain ⟨directory, name, rfl, located⟩ := World.exists_directory_of_target? found
  rw [List.dropLast_concat] at writable
  rw [flattenToFile, run_bind_of_ite (run_createSpool located writable)]
  by_cases refused : world.refusesNext = true
  · rw [if_pos refused]
    exact ⟨_, _, rfl, .of_refused (World.refusals_ne_nil refused) _ _⟩
  rw [if_neg refused]
  -- From here on the temporary file is there, and what is left are the steps that use it.
  have lacks : world.asked.Lacks (world.spoolIn directory) := world.lacks_spoolIn directory
  obtain ⟨result, held, after, ran, filled⟩ := run_spoolFlattened zoneNamed? settings items lacks
  obtain ⟨refusals, rfl⟩ := filled.rest
  have isOpen : (world.asked.withRefusals refusals).isOpen directory = true := writable
  have foundStill : (world.asked.withRefusals refusals).target? path = some (directory ++ [name]) :=
    found
  have placed := run_placeSpool isOpen foundStill held result
  have noneLeft (none : world.refusals = []) := filled.unhindered (congrArg List.tail none)
  dsimp only
  rw [run_bind_of_run ran]
  refine ⟨_, _, placed, ?_⟩
  cases result with
  | error error =>
    constructor
    case replaced =>
      intro n same
      cases same
    case kept => exact fun _ _ => rfl
    case unhindered => exact fun none => (noneLeft none).1
  | ok count =>
    obtain ⟨succeeded, rfl⟩ := filled.complete count rfl
    dsimp only
    by_cases refusedMove : (world.asked.withRefusals refusals).refusesNext = true
    · rw [if_pos refusedMove]
      apply IsExported.of_refused
      intro none
      exact World.refusals_ne_nil refusedMove (noneLeft none).2
    · rw [if_neg refusedMove]
      constructor
      case replaced =>
        rintro n ⟨rfl⟩
        exact ⟨succeeded, isReplaced_put found writable _ refusals.tail⟩
      case kept =>
        intro error same
        cases same
      case unhindered => exact fun _ => succeeded.symm

theorem run_runFlatten (zoneNamed? : String → Option Zone) (settings : Settings) {world : World}
    {input : String} {content : Bytes} (there : world.readFile input = .bytes content)
    (output : String) :
    (runFlatten zoneNamed? settings (some input) (some output) : StateM World _).run world =
      (flattenToFile zoneNamed? settings (StopPlaceLines.read content) output :
        StateM World _).run world := by
  have opened : (openInput (some input) : StateM World _).run world =
      (.ok (StopPlaceLines.read content), world) := by
    have found : (Host.readFile input : StateM World _).run world = (.bytes content, world) :=
      congrArg (Prod.mk · world) there
    rw [openInput, run_bind_of_run found]
    rfl
  rw [runFlatten, run_bind_of_run opened]

/-- Whatever zones are found for names, and whatever is refused on the way, a run that reads one
file and writes another one replaces that file by all of the output, which has a line for each stop
place that is counted, or it fails and changes nothing. Where nothing is refused it fails just for
what is wrong with the items or with the name of the zone. -/
theorem runFlatten_replaces_output (zoneNamed? : String → Option Zone) (settings : Settings)
    {world : World} {input output : String} {content : Bytes} {names : List String}
    (inputThere : world.readFile input = .bytes content)
    (outputFree : world.target? output = some names)
    (writable : world.isOpen names.dropLast = true) :
    let written := Flatten.write zoneNamed? settings.rules settings.timeZone
      (StopPlaceLines.read content)
    ∃ result after, (runFlatten zoneNamed? settings (some input) (some output) :
        StateM World _).run world = (result, after) ∧
      (∀ n, result = .ok n → written.result = .ok n ∧
        IsReplaced world output (encode written.text) after ∧
        ∃ lines, physicalLines (encode written.text) = lines ++ [[]] ∧ lines.length = n) ∧
      (∀ error, result = .error error → after = world.withRefusals after.refusals) ∧
      (world.refusals = [] → result = written.result) := by
  intro written
  obtain ⟨result, after, ran, exported⟩ := run_flattenToFile zoneNamed? settings
    (StopPlaceLines.read content) outputFree writable
  refine ⟨result, after, (run_runFlatten zoneNamed? settings inputThere output).trans ran, ?_,
    exported.kept, exported.unhindered⟩
  intro n succeeded
  obtain ⟨result, replaced⟩ := exported.replaced n succeeded
  exact ⟨result, replaced, Flatten.exists_lines_of_write result⟩

/-- A directory with an input, and an output of a run before. -/
def exportWorld (input : Bytes) (refusals : List Bool) : World where
  files := [(["work", "in.jsonl"], input),
    (["work", "out.jsonl"], encode "previous export\n".toList)]
  directory := ["work"]
  otherDirectories := []
  devices := []
  input := []
  environment := []
  printed := []
  reported := ""
  refusals := refusals

/-- A run in that directory. -/
def exportRun (zoneName : String) (world : World) : Except CommandError Nat × World :=
  (runFlatten Zone.named? ⟨.default, zoneName⟩ (some "in.jsonl") (some "out.jsonl") :
    StateM World _).run world

/-- What is written of these stop places: a line for each, or an error for the second one. -/
theorem write_twoVersions {place : StopPlace} {error : FlatteningError}
    (flattened : twoVersions.flatten .default (.fixed (.east 0)) = .ok place)
    (clash : clashingVersions.flatten .default (.fixed (.east 0)) = .error error) :
    Flatten.write Zone.named? .default "UTC" (StopPlaceLines.read
        (encode (linesText [twoVersions, twoVersions]))) = ⟨linesText [place, place], .ok 2⟩ ∧
      (Flatten.write Zone.named? .default "UTC" (StopPlaceLines.read
        (encode (linesText [twoVersions, clashingVersions])))).result =
          .error (.unflattened 2 (.flattening error)) := by
  have twoBare : twoVersions.IsBare := ⟨rfl, by decide⟩
  have clashingBare : clashingVersions.IsBare := ⟨rfl, by decide⟩
  have item : flattenItem .default (.fixed (.east 0)) (.ok twoVersions : Except LineError _) =
      .ok place := flattenItem_eq_ok_iff.mpr ⟨_, rfl, flattened⟩
  have faulty : flattenItem .default (.fixed (.east 0))
      (.ok clashingVersions : Except LineError _) = .error (.flattening error) := by
    rw [flattenItem, clash]
    rfl
  constructor
  · rw [StopPlaceLines.read_linesText_of_bare (by simp [twoBare])]
    exact Flatten.writeItems_eq_ok_iff.mpr
      ⟨_, mapM_eq_ok_iff.mpr (.cons item (.cons item .nil)), rfl, rfl⟩
  · rw [StopPlaceLines.read_linesText_of_bare (by simp [twoBare, clashingBare])]
    exact Flatten.result_writeItems_eq_error_iff.mpr
      ⟨[_], _, [], _, _, rfl, mapM_eq_ok_iff.mpr (.cons item .nil), faulty, rfl⟩

/-- All versions are replaced by their fragments, or nothing is changed: for a clash on the last
line, for a zone that is not found, and for a line end that is refused. -/
theorem runFlatten_replaces_output_exportWorld :
    let good := exportWorld (encode (linesText [twoVersions, twoVersions])) []
    let clashing := exportWorld (encode (linesText [twoVersions, clashingVersions])) []
    let refusing := exportWorld (encode (linesText [StopPlace.blank])) [false, false, true]
    (∀ world ∈ [good, clashing, refusing], world.target? "out.jsonl" = some ["work", "out.jsonl"] ∧
      world.isOpen ["work"] = true ∧ ∃ input, world.readFile "in.jsonl" = .bytes input) ∧
    (∃ place after, twoVersions.flatten .default (.fixed (.east 0)) = .ok place ∧
      place.quays.length = 2 ∧ exportRun "UTC" good = (.ok 2, after) ∧
      after.readFile "out.jsonl" = .bytes (encode (linesText [place, place]))) ∧
    (∃ error refusals, exportRun "UTC" clashing =
      (.error (.unflattened 2 (.flattening error)), clashing.withRefusals refusals)) ∧
    (∃ refusals, exportRun "Atlantis" good =
      (.error (.unknownZone "Atlantis"), good.withRefusals refusals)) ∧
    ∃ error refusals,
      exportRun "UTC" refusing = (.error error, refusing.withRefusals refusals) := by
  intro good clashing refusing
  have exported (zoneName : String) (input : Bytes) (refusals : List Bool) :=
    runFlatten_replaces_output Zone.named? ⟨.default, zoneName⟩
      (Eq.refl ((exportWorld input refusals).readFile "in.jsonl"))
      (Eq.refl ((exportWorld input refusals).target? "out.jsonl")) rfl
  obtain ⟨place, flattened, two⟩ := StopPlace.exists_flatten_twoVersions
  obtain ⟨error, clash⟩ := StopPlace.exists_flatten_clashingVersions
  obtain ⟨written, stopped⟩ := write_twoVersions flattened clash
  refine ⟨?_, ?_, ?_, ?_, ?_⟩
  · simp only [List.forall_mem_cons]
    exact ⟨⟨rfl, rfl, _, rfl⟩, ⟨rfl, rfl, _, rfl⟩, ⟨rfl, rfl, _, rfl⟩, fun _ none => nomatch none⟩
  · obtain ⟨result, after, ran, succeeds, -, unhindered⟩ :=
      exported "UTC" (encode (linesText [twoVersions, twoVersions])) []
    have result : result = .ok 2 := (unhindered rfl).trans (congrArg Written.result written)
    have replaced := (succeeds 2 result).2.1.own
    rw [written] at replaced
    exact ⟨place, after, flattened, two, ran.trans (by rw [result]), replaced⟩
  · obtain ⟨result, after, ran, -, kept, unhindered⟩ :=
      exported "UTC" (encode (linesText [twoVersions, clashingVersions])) []
    have failed : result = _ := (unhindered rfl).trans stopped
    exact ⟨error, _, ran.trans (Prod.ext failed (kept _ failed))⟩
  · obtain ⟨result, after, ran, -, kept, unhindered⟩ :=
      exported "Atlantis" (encode (linesText [twoVersions, twoVersions])) []
    have failed : result = .error (.unknownZone "Atlantis") := unhindered rfl
    exact ⟨_, ran.trans (Prod.ext failed (kept _ failed))⟩
  · obtain ⟨result, after, ran, -, kept, -⟩ :=
      exported "UTC" (encode (linesText [StopPlace.blank])) [false, false, true]
    have failed : (exportRun "UTC" refusing).1.toOption = none := by decide +kernel
    have first : (exportRun "UTC" refusing).1 = result := congrArg Prod.fst ran
    rw [first] at failed
    cases result with
    | ok n => cases failed
    | error error => exact ⟨error, _, ran.trans (Prod.ext rfl (kept _ rfl))⟩

end CommandLine

end QuayTimeline
