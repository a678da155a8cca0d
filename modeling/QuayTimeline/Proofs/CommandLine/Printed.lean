import QuayTimeline.Proofs.CommandLine.Output

/-! # What is printed

The command that shows timelines prints the lines of one stop place after another, up to what is
wrong or what cannot be printed. The command that flattens prints its output as a whole, from a
temporary file that is gone when it ends. -/

namespace QuayTimeline

open CommandLine (encode)

namespace CommandLine

/-- The world after some more has been printed. -/
def printedOn (world : World) (content : Bytes) : World :=
  { world with printed := world.printed ++ content }

theorem run_print (world : World) (content : Bytes) :
    (Host.print content : StateM World _).run world =
      if world.refusesNext then (false, world.asked) else (true, printedOn world.asked content) :=
  rfl

/-- How a run ends that prints as it goes. What it prints begins the text that is printed if nothing
is refused, and a run that succeeds prints all of it. -/
structure IsPrinted (written : Written Unit) (world : World) (result : Except CommandError Unit)
    (text : List Char) (after : World) : Prop where
  rest : ∃ refusals, after = (printedOn world (encode text)).withRefusals refusals
  begins : text <+: written.text
  complete : result = .ok () → written.result = .ok () ∧ text = written.text
  unhindered : world.refusals = [] → result = written.result ∧ text = written.text

theorem printedOn_nil (world : World) : printedOn world (encode []) = world := by
  rw [printedOn, encode_nil, List.append_nil]

theorem IsPrinted.of_nothing (world : World) (result : Except CommandError Unit) :
    IsPrinted ⟨[], result⟩ world result [] world where
  rest := ⟨world.refusals, by rw [printedOn_nil]; rfl⟩
  begins := List.prefix_rfl
  complete succeeded := ⟨succeeded, rfl⟩
  unhindered _ := ⟨rfl, rfl⟩

theorem IsPrinted.of_refused {written : Written Unit} {world : World}
    (refused : world.refusesNext = true) (error : CommandError) :
    IsPrinted written world (.error error) [] world.asked where
  rest := ⟨world.refusals.tail, by rw [printedOn_nil]; rfl⟩
  begins := List.nil_prefix
  complete same := nomatch same
  unhindered none := absurd none (World.refusals_ne_nil refused)

/-- What is printed behind lines that are printed. -/
theorem IsPrinted.behind {written : Written Unit} {world after : World}
    {result : Except CommandError Unit} {text : List Char} (lines : List Char)
    (printed : IsPrinted written (printedOn world.asked (encode lines)) result text after) :
    IsPrinted ⟨lines ++ written.text, written.result⟩ world result (lines ++ text) after where
  rest := by
    obtain ⟨refusals, rfl⟩ := printed.rest
    refine ⟨refusals, ?_⟩
    rw [printedOn, printedOn, printedOn, encode_append, ← List.append_assoc]
    rfl
  begins := (List.prefix_append_right_inj lines).mpr printed.begins
  complete succeeded :=
    have ⟨same, whole⟩ := printed.complete succeeded
    ⟨same, congrArg (lines ++ ·) whole⟩
  unhindered none :=
    have ⟨same, whole⟩ := printed.unhindered (congrArg List.tail none)
    ⟨same, congrArg (lines ++ ·) whole⟩

/-- Timelines are printed as they are written to a text, up to a refusal. -/
theorem run_printItems (rules : FlatteningRules) (items : List (Except LineError StopPlace))
    (ordinal : Nat) (world : World) :
    ∃ result text after, (printItems rules ordinal items : StateM World _).run world =
        (result, after) ∧
      IsPrinted (Inspect.writeItems rules ordinal items) world result text after := by
  induction items generalizing ordinal world with
  | nil => exact ⟨_, _, _, rfl, .of_nothing world _⟩
  | cons item items ih =>
    cases item with
    | error cause => exact ⟨_, _, _, rfl, .of_nothing world _⟩
    | ok place =>
      rw [printItems, Inspect.writeItems]
      obtain ⟨lines, result⟩ := Inspect.writePlace rules place
      dsimp only
      rw [run_bind_of_ite (run_print world _)]
      by_cases refused : world.refusesNext = true
      · rw [if_pos refused]
        exact ⟨_, _, _, rfl, .of_refused refused _⟩
      rw [if_neg refused, if_pos rfl]
      cases result with
      | error cause =>
        have printed := IsPrinted.of_nothing (printedOn world.asked (encode lines))
          (.error (.uninspected ordinal cause))
        have behind := printed.behind lines
        rw [List.append_nil] at behind
        exact ⟨_, _, _, rfl, behind⟩
      | ok =>
        obtain ⟨result, text, after, ran, printed⟩ :=
          ih (ordinal + 1) (printedOn world.asked (encode lines))
        exact ⟨result, lines ++ text, after, ran, printed.behind lines⟩

/-! ## Printing from a temporary file -/

theorem run_readSpool (world : World) (spool : List String) (held : Bytes) :
    (Host.readSpool spool : StateM World _).run (world.put spool held) =
      if world.refusesNext then (none, world.asked.put spool held)
      else (some held, world.asked.put spool held) := by
  have there : (world.asked.put spool held).files.file? spool = some held :=
    FileTree.file?_put_self
  rw [← there]
  rfl

theorem run_print_put (world : World) (spool : List String) (held content : Bytes) :
    (Host.print content : StateM World _).run (world.put spool held) =
      if world.refusesNext then (false, world.asked.put spool held)
      else (true, (printedOn world.asked content).put spool held) :=
  rfl

theorem run_flushOutput_put (world : World) (spool : List String) (held : Bytes) :
    (Host.flushOutput : StateM World _).run (world.put spool held) =
      if world.refusesNext then (false, world.asked.put spool held)
      else (true, world.asked.put spool held) :=
  rfl

/-- How a run ends that prints its output as a whole: all of it is printed or nothing, and it
succeeds only if all is. -/
structure IsPrintedWhole (written : Written Nat) (world : World)
    (result : Except CommandError Nat) (after : World) : Prop where
  printed : ∃ content refusals, after = (printedOn world content).withRefusals refusals ∧
    (content = [] ∨ (∃ n, written.result = .ok n) ∧ content = encode written.text) ∧
    ∀ n, result = .ok n → written.result = .ok n ∧ content = encode written.text
  unhindered : world.refusals = [] → result = written.result

namespace IsPrintedWhole

variable {written : Written Nat} {world : World}

theorem of_nothing (error : CommandError) (refusals : List Bool)
    (unhindered : world.refusals = [] → .error error = written.result) :
    IsPrintedWhole written world (.error error) (world.withRefusals refusals) where
  printed := by
    refine ⟨[], refusals, ?_, .inl rfl, fun n same => nomatch same⟩
    rw [printedOn, List.append_nil]
  unhindered := unhindered

/-- All is printed; the run may yet fail if what is printed is not passed on. -/
theorem of_all {result : Except CommandError Nat} {count : Nat}
    (succeeded : written.result = .ok count) (refusals : List Bool)
    (ends : result = .ok count ∨ world.refusals ≠ [] ∧ ∃ error, result = .error error) :
    IsPrintedWhole written world result
      ((printedOn world (encode written.text)).withRefusals refusals) where
  printed := by
    refine ⟨_, refusals, rfl, .inr ⟨⟨count, succeeded⟩, rfl⟩, ?_⟩
    intro n succeeds
    obtain same | ⟨-, error, same⟩ := ends
    · rw [succeeded, ← same]
      exact ⟨succeeds, rfl⟩
    · rw [same] at succeeds
      cases succeeds
  unhindered none := by
    obtain same | ⟨someLeft, -⟩ := ends
    · rw [same, succeeded]
    · exact absurd none someLeft

end IsPrintedWhole

/-- A temporary file that was filled is printed as a whole, or nothing is printed. -/
theorem run_printSpool {written : Written Nat} {world after : World}
    {result : Except CommandError Nat} {held : Bytes}
    (filled : IsFilled written [] world result held after) (spool : List String) :
    ∃ printed last, (printSpool spool result : StateM World _).run (after.put spool held) =
        (printed, last.put spool held) ∧ IsPrintedWhole written world printed last := by
  obtain ⟨refusals, rfl⟩ := filled.rest
  have noneLeft (none : world.refusals = []) : refusals = [] := (filled.unhindered none).2
  cases result with
  | error error =>
    exact ⟨_, _, rfl, .of_nothing error refusals fun none => (filled.unhindered none).1⟩
  | ok count =>
    obtain ⟨succeeded, isText⟩ := filled.complete count rfl
    rw [List.nil_append] at isText
    subst isText
    -- Three requests: to read the file, to print it, and to pass on what is printed.
    let read := (world.withRefusals refusals).asked
    let sent := printedOn read.asked (encode written.text)
    rw [printSpool, run_bind_of_ite (run_readSpool _ spool _)]
    by_cases refused : (world.withRefusals refusals).refusesNext = true
    · rw [if_pos refused]
      refine ⟨_, read, rfl, .of_nothing _ refusals.tail fun none => ?_⟩
      exact absurd (noneLeft none) (World.refusals_ne_nil refused)
    rw [if_neg refused]
    dsimp only
    rw [run_bind_of_ite (run_print_put _ spool _ _)]
    by_cases refusedNext : read.refusesNext = true
    · rw [if_pos refusedNext]
      refine ⟨_, read.asked, rfl, .of_nothing _ refusals.tail.tail fun none => ?_⟩
      exact absurd (congrArg List.tail (noneLeft none)) (World.refusals_ne_nil refusedNext)
    rw [if_neg refusedNext, if_pos rfl, run_bind_of_ite (run_flushOutput_put _ spool _)]
    by_cases refusedLast : sent.refusesNext = true
    · rw [if_pos refusedLast]
      refine ⟨_, sent.asked, rfl, .of_all succeeded refusals.tail.tail.tail (.inr ⟨?_, _, rfl⟩)⟩
      intro none
      exact World.refusals_ne_nil refusedLast (congrArg (·.tail.tail) (noneLeft none))
    · rw [if_neg refusedLast]
      exact ⟨_, sent.asked, rfl, .of_all succeeded refusals.tail.tail.tail (.inl rfl)⟩

/-- Where a temporary file can be created, the command prints all of its output or nothing, and
leaves no file behind. Where nothing is refused it ends as the writing of its output does. -/
theorem run_flattenToOutput (zoneNamed? : String → Option Zone) (settings : Settings)
    (items : List (Except LineError StopPlace)) {world : World} {directory : List String}
    (located : world.locate? (temporaryDirectory world.environment) = some directory)
    (isOpen : world.isOpen directory = true) :
    ∃ result after,
      (flattenToOutput zoneNamed? settings items : StateM World _).run world = (result, after) ∧
      IsPrintedWhole (Flatten.write zoneNamed? settings.rules settings.timeZone items) world result
        after := by
  have environment : (Host.environment : StateM World _).run world = (world.environment, world) :=
    rfl
  rw [flattenToOutput, run_bind_of_run environment,
    run_bind_of_ite (run_createSpool located isOpen)]
  by_cases refused : world.refusesNext = true
  · rw [if_pos refused]
    refine ⟨_, _, rfl, .of_nothing _ world.refusals.tail fun none => ?_⟩
    exact absurd none (World.refusals_ne_nil refused)
  rw [if_neg refused]
  have lacks : world.asked.Lacks (world.spoolIn directory) := world.lacks_spoolIn directory
  obtain ⟨result, held, after, ran, filled⟩ :=
    run_spoolFlattened zoneNamed? settings items lacks
  obtain ⟨printed, last, ranPrint, whole⟩ :=
    run_printSpool filled.of_granted (world.spoolIn directory)
  have lacksStill : last.Lacks (world.spoolIn directory) := by
    obtain ⟨content, refusals, rfl, -⟩ := whole.printed
    exact lacks
  dsimp only
  rw [run_bind_of_run ran, run_bind_of_run ranPrint,
    run_bind_of_run (run_discardSpool lacksStill held)]
  exact ⟨_, _, rfl, whole⟩

end CommandLine

end QuayTimeline
