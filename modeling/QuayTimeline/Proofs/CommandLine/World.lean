import QuayTimeline.Proofs.CommandLine.FilePath
import QuayTimeline.Proofs.CommandLine.FileTree

/-! # Files of a world

Where a file can be put at a path, the path leads to a name in the directory that is named by its
parts before the last one. A file that is put in a directory in which files can be created changes
what no other path leads to. -/

namespace QuayTimeline.World

open FilePath

variable {world : World} {directory above names others : List String} {content : Bytes}

/-! ## Directories -/

theorem isOpen_above (leads : above <+: directory) (isOpen : world.isOpen directory = true) :
    world.isOpen above = true := by
  rw [World.isOpen, Bool.or_eq_true] at isOpen ⊢
  apply isOpen.imp
  · simp only [List.any_eq_true, List.isPrefixOf_iff_prefix]
    rintro ⟨known, member, below⟩
    exact ⟨known, member, leads.trans below⟩
  · exact FileTree.isDirectory_above leads

theorem isDirectory_above (leads : above <+: directory)
    (isDirectory : world.isDirectory directory = true) : world.isDirectory above = true := by
  rw [World.isDirectory, Bool.or_eq_true] at isDirectory ⊢
  apply isDirectory.imp
  · exact isOpen_above leads
  · exact FileTree.isDirectory_above leads

theorem isDirectory_of_isOpen (isOpen : world.isOpen directory = true) :
    world.isDirectory directory = true := by
  rw [World.isDirectory, isOpen, Bool.true_or]

theorem isOpen_directory (world : World) : world.isOpen world.directory = true := by
  simp [World.isOpen]

/-- The directory from which the parts of a path lead. -/
def start (world : World) (path : String) : List String :=
  if isAbsolute path then [] else world.directory

theorem isDirectory_start (world : World) (path : String) :
    world.isDirectory (world.start path) = true := by
  have current := isDirectory_of_isOpen world.isOpen_directory
  rw [start]
  split
  · exact isDirectory_above List.nil_prefix current
  · exact current

/-! ## Ways through directories -/

theorem enter?_eq_some_iff {part : List Char} :
    world.enter? directory part = some names ↔
      follow directory part = names ∧ world.isDirectory names = true := by
  constructor
  · intro entered
    rw [enter?] at entered
    split at entered
    next isDirectory =>
      cases entered
      exact ⟨rfl, isDirectory⟩
    next => cases entered
  · rintro ⟨rfl, isDirectory⟩
    exact if_pos isDirectory

theorem enter?_of_idle {part : List Char} (idle : isIdle part = true)
    (there : world.isDirectory directory = true) :
    world.enter? directory part = some directory :=
  enter?_eq_some_iff.mpr ⟨follow_of_idle idle directory, there⟩

theorem isDirectory_of_foldlM {parts : List (List Char)}
    (there : world.isDirectory directory = true)
    (leads : parts.foldlM world.enter? directory = some names) :
    world.isDirectory names = true := by
  induction parts generalizing directory with
  | nil => exact Option.some.inj leads ▸ there
  | cons part parts ih =>
    rw [List.foldlM_cons, Option.bind_eq_bind, Option.bind_eq_some_iff] at leads
    obtain ⟨next, entered, leads⟩ := leads
    exact ih (enter?_eq_some_iff.mp entered).2 leads

theorem foldlM_of_idle {parts : List (List Char)} (idle : ∀ part ∈ parts, isIdle part = true)
    (there : world.isDirectory directory = true) :
    parts.foldlM world.enter? directory = some directory := by
  induction parts with
  | nil => rfl
  | cons part parts ih =>
    obtain ⟨first, others⟩ := List.forall_mem_cons.mp idle
    rw [List.foldlM_cons, enter?_of_idle first there]
    exact ih others

theorem map_follow_of_foldlM {before : List (List Char)} {last : List Char}
    (leads : (before ++ [last]).foldlM world.enter? directory = some names) :
    (before.foldlM world.enter? directory).map (follow · last) = some names := by
  rw [List.foldlM_append, Option.bind_eq_bind, Option.bind_eq_some_iff] at leads
  obtain ⟨middle, first, entered⟩ := leads
  rw [List.foldlM_cons, Option.bind_eq_bind, Option.bind_eq_some_iff] at entered
  obtain ⟨_, entered, ⟨rfl⟩⟩ := entered
  rw [first, Option.map_some, (enter?_eq_some_iff.mp entered).1]

/-- Idle parts at an end can be left out. -/
theorem foldlM_of_append_idle {parts idle : List (List Char)}
    (allIdle : ∀ part ∈ idle, isIdle part = true) (there : world.isDirectory directory = true)
    (leads : (parts ++ idle).foldlM world.enter? directory = some names) :
    parts.foldlM world.enter? directory = some names := by
  rw [List.foldlM_append, Option.bind_eq_bind, Option.bind_eq_some_iff] at leads
  obtain ⟨middle, first, rest⟩ := leads
  rw [foldlM_of_idle allIdle (isDirectory_of_foldlM there first)] at rest
  cases rest
  exact first

/-- The last part of a path leads on from the directory that the parts before it lead to. -/
theorem locate?_of_rawParts {path : String} (usable : isUsable path = true)
    {before : List (List Char)} {last : List Char}
    (split : rawParts path.toList = before ++ [last]) :
    world.locate? path =
      (before.foldlM world.enter? (world.start path)).map (follow · last) := by
  rw [locate?, if_pos usable, split, List.reverse_append, List.reverse_singleton,
    List.singleton_append]
  simp only [List.reverse_reverse]
  rw [start]
  cases before.foldlM world.enter? (if isAbsolute path then [] else world.directory) <;> rfl

theorem isUsable_of_locate? {path : String} (found : world.locate? path = some names) :
    isUsable path = true := by
  rw [locate?] at found
  split at found
  next usable => exact usable
  next => cases found

theorem target?_eq_some_iff {path : String} : world.target? path = some names ↔
    world.locate? path = some names ∧ world.isDirectory names = false := by
  rw [target?, Option.bind_eq_bind, Option.bind_eq_some_iff]
  constructor
  · rintro ⟨found, located, free⟩
    split at free
    next => cases free
    next notDirectory =>
      cases free
      exact ⟨located, Bool.eq_false_iff.mpr notDirectory⟩
  · rintro ⟨located, free⟩
    exact ⟨names, located, by simp [free]⟩

/-! ## The directory of a path -/

theorem locate?_currentDirectory (world : World) :
    world.locate? "." = some world.directory := by
  have split : rawParts ".".toList = [] ++ [['.']] := by decide
  rw [locate?_of_rawParts (by decide) split]
  have relative : world.start "." = world.directory := if_neg (by decide)
  rw [relative]
  exact congrArg some (follow_of_idle (by decide) _)

theorem locate?_root (world : World) : world.locate? "/" = some [] := by
  have split : rawParts "/".toList = [[]] ++ [[]] := by decide
  rw [locate?_of_rawParts (by decide) split]
  have absolute : world.start "/" = [] := if_pos (by decide)
  have there : world.isDirectory [] = true := absolute ▸ world.isDirectory_start "/"
  rw [absolute, foldlM_of_idle (by decide) there]
  exact congrArg some (follow_of_idle (by decide) _)

theorem locate?_ofParts {path : String} {parts others : List (List Char)}
    (split : rawParts path.toList = parts ++ others) (usable : isUsable path = true)
    (othersNotNil : others ≠ []) (notNil : parts ≠ []) (notEmpty : parts ≠ [[]])
    (leads : parts.foldlM world.enter? (world.start path) = some directory) :
    world.locate? (ofParts parts) = some directory := by
  have usableToo := isUsable_ofParts split notNil usable othersNotNil notEmpty
  have same := rawParts_ofParts_beginning split notNil
  have sameStart : world.start (ofParts parts) = world.start path := by
    rw [start, start, isAbsolute_ofParts split notNil othersNotNil notEmpty]
  have ends := (List.dropLast_append_getLast notNil).symm
  rw [locate?_of_rawParts usableToo (same.trans ends), sameStart]
  rw [ends] at leads
  exact map_follow_of_foldlM leads

/-- The directory of a path is where the parts of the path before its last one lead. -/
theorem locate?_parent {path : String} (usable : isUsable path = true)
    {before : List (List Char)} {last : List Char}
    (split : rawParts path.toList = before ++ [last]) (busy : isIdle last = false)
    (leads : before.foldlM world.enter? (world.start path) = some directory) :
    world.locate? (parent path) = some directory := by
  obtain ⟨idle, kept, allIdle⟩ := exists_idle_of_dropIdleEnd before
  have there := world.isDirectory_start path
  rw [parent_of_rawParts split busy]
  split
  next none =>
    have none : before = [] := dropIdleEnd_eq_nil_iff.mp none
    subst none
    have relative : isAbsolute path = false := by
      rw [Bool.eq_false_iff, Ne, isAbsolute_iff, split]
      rintro ⟨more, notNil, single⟩
      exact notNil (List.cons.inj single).2.symm
    rw [start, relative] at leads
    exact world.locate?_currentDirectory.trans leads
  next root =>
    rw [root] at kept
    have absolute : isAbsolute path = true := by
      rw [isAbsolute_iff, split, kept]
      exact ⟨_, List.append_ne_nil_of_right_ne_nil _ (List.cons_ne_nil _ _), rfl⟩
    have same : world.start path = [] := if_pos absolute
    have idleParts : ∀ part ∈ before, isIdle part = true := by
      rw [kept]
      exact List.forall_mem_append.mpr ⟨by decide, allIdle⟩
    rw [foldlM_of_idle idleParts there, same] at leads
    exact world.locate?_root.trans leads
  next notNil notRoot =>
    have whole : rawParts path.toList = dropIdleEnd before ++ (idle ++ [last]) := by
      rw [split, ← List.append_assoc, ← kept]
    have more : idle ++ [last] ≠ [] := List.append_ne_nil_of_right_ne_nil _ (List.cons_ne_nil _ _)
    rw [kept] at leads
    exact locate?_ofParts whole usable more notNil notRoot
      (foldlM_of_append_idle allIdle there leads)

/-- Where a file can be put at a path, it is put in the directory of the path. -/
theorem exists_directory_of_target? {path : String} (found : world.target? path = some names) :
    ∃ directory name, names = directory ++ [name] ∧
      world.locate? (parent path) = some directory := by
  obtain ⟨located, free⟩ := target?_eq_some_iff.mp found
  have usable := isUsable_of_locate? located
  have split := (List.dropLast_append_getLast (rawParts_ne_nil path.toList)).symm
  generalize (rawParts path.toList).dropLast = before at split
  generalize (rawParts path.toList).getLast _ = last at split
  rw [locate?_of_rawParts usable split, Option.map_eq_some_iff] at located
  obtain ⟨directory, leads, rfl⟩ := located
  have there := isDirectory_of_foldlM (world.isDirectory_start path) leads
  have busy : isIdle last = false := by
    by_contra idle
    rw [follow_of_idle (by simpa using idle), there] at free
    cases free
  have notUp : last ≠ ['.', '.'] := by
    rintro rfl
    have up := isDirectory_above directory.dropLast_prefix there
    have same : follow directory ['.', '.'] = directory.dropLast := rfl
    rw [same, up] at free
    cases free
  refine ⟨directory, String.ofList last, ?_, locate?_parent usable split busy leads⟩
  have named : ¬ (last = [] ∨ last = ['.']) := by simpa [isIdle] using busy
  rw [follow, if_neg named, if_neg notUp]

/-! ## Files in open directories -/

/-- The world with a file, in place of the one that the names lead to. -/
def put (world : World) (names : List String) (content : Bytes) : World :=
  { world with files := world.files.put names content }

section Open

variable (isOpen : world.isOpen directory = true) (name : String) (content : Bytes)
include isOpen

theorem isOpen_put (others : List String) :
    (world.put (directory ++ [name]) content).isOpen others = world.isOpen others := by
  rw [Bool.eq_iff_iff]
  simp only [World.isOpen, put, Bool.or_eq_true, FileTree.isDirectory_put_iff]
  constructor
  · rintro (known | old | ⟨leads, below⟩)
    · exact .inl known
    · exact .inr old
    · have above : others <+: directory := (List.prefix_concat_iff.mp leads).resolve_left below
      exact Bool.or_eq_true_iff.mp (isOpen_above above isOpen)
  · rintro (known | old)
    · exact .inl known
    · exact .inr (.inl old)

theorem isDirectory_put : (world.put (directory ++ [name]) content).isDirectory =
    world.isDirectory := by
  funext others
  rw [World.isDirectory, World.isDirectory, isOpen_put isOpen]
  rfl

theorem locate?_put (path : String) :
    (world.put (directory ++ [name]) content).locate? path = world.locate? path := by
  have same : (world.put (directory ++ [name]) content).enter? = world.enter? := by
    funext above part
    rw [enter?, enter?, isDirectory_put isOpen]
  rw [locate?, locate?, same]
  rfl

theorem target?_put (path : String) :
    (world.put (directory ++ [name]) content).target? path = world.target? path := by
  rw [target?, target?, locate?_put isOpen, isDirectory_put isOpen]

theorem readFile_put_self {path : String}
    (found : world.target? path = some (directory ++ [name])) :
    (world.put (directory ++ [name]) content).readFile path = .bytes content := by
  obtain ⟨located, free⟩ := target?_eq_some_iff.mp found
  have there : (world.put (directory ++ [name]) content).files.file? (directory ++ [name]) =
      some content := FileTree.file?_put_self
  simp only [readFile, locate?_put isOpen, located, isDirectory_put isOpen, free, there]
  rfl

theorem readFile_put_of_ne {path : String}
    (other : world.locate? path ≠ some (directory ++ [name])) :
    (world.put (directory ++ [name]) content).readFile path = world.readFile path := by
  rw [readFile, readFile, locate?_put isOpen, isDirectory_put isOpen]
  cases located : world.locate? path with
  | none => rfl
  | some names =>
    have notHere : names ≠ directory ++ [name] := by
      rintro rfl
      exact other located
    have kept : (world.put (directory ++ [name]) content).files.file? names =
        world.files.file? names := FileTree.file?_put_of_ne notHere
    simp only [kept]
    rfl

end Open

end QuayTimeline.World
