import Mathlib.Data.List.DropRight
import QuayTimeline.CommandLine.Host

/-! # Paths

A path is the slashes and parts that it is made of. The directory of a path is named by the parts
before its last one: these make a path again, which starts from the root when the first one does. -/

namespace QuayTimeline.FilePath

/-! ## Parts -/

theorem rawParts_ne_nil (cs : List Char) : rawParts cs ≠ [] := by
  cases cs with
  | nil => simp [rawParts]
  | cons c cs =>
    rw [rawParts]
    split
    · simp
    · split <;> simp

theorem rawParts_cons_of_ne {c : Char} (other : c ≠ '/') {cs part : List Char}
    {parts : List (List Char)} (rest : rawParts cs = part :: parts) :
    rawParts (c :: cs) = (c :: part) :: parts := by
  rw [rawParts, if_neg other, rest]

theorem rawParts_eq_splitOn (cs : List Char) : rawParts cs = cs.splitOn '/' := by
  induction cs with
  | nil => rfl
  | cons c cs ih =>
    rw [List.splitOn, List.splitOnP_cons_eq_if_modifyHead, ← List.splitOn, ← ih]
    obtain ⟨part, parts, rest⟩ := List.exists_cons_of_ne_nil (rawParts_ne_nil cs)
    by_cases slash : c = '/'
    · simp [rawParts, slash]
    · simp [rawParts_cons_of_ne slash rest, rest, slash]

theorem slash_not_mem_of_mem_rawParts {cs part : List Char} (member : part ∈ rawParts cs) :
    '/' ∉ part := by
  induction cs generalizing part with
  | nil => simp_all [rawParts]
  | cons c cs ih =>
    obtain ⟨first, parts, rest⟩ := List.exists_cons_of_ne_nil (rawParts_ne_nil cs)
    rw [rest] at ih
    by_cases slash : c = '/'
    · rw [rawParts, if_pos slash, rest] at member
      cases member with
      | head => simp
      | tail _ member => exact ih member
    · rw [rawParts_cons_of_ne slash rest] at member
      cases member with
      | head =>
        have others := ih List.mem_cons_self
        simp [Ne.symm slash, others]
      | tail _ member => exact ih (List.mem_cons_of_mem _ member)

/-- A path starts from the root when its first part is empty and not its only one. -/
theorem isAbsolute_iff {path : String} : isAbsolute path = true ↔
    ∃ more, more ≠ [] ∧ rawParts path.toList = [] :: more := by
  rw [isAbsolute]
  cases path.toList with
  | nil => simp [rawParts]
  | cons c cs =>
    obtain ⟨first, parts, rest⟩ := List.exists_cons_of_ne_nil (rawParts_ne_nil cs)
    by_cases slash : c = '/'
    · simp [rawParts, slash, rawParts_ne_nil]
    · simp [rawParts_cons_of_ne slash rest, Ne.symm slash]

/-! ## Idle ends -/

/-- Whether a part leads from a directory to that directory. -/
def isIdle (part : List Char) : Bool :=
  part = [] || part = ['.']

theorem follow_of_idle {part : List Char} (idle : isIdle part = true) (directory : List String) :
    follow directory part = directory := by
  have idle : part = [] ∨ part = ['.'] := by simpa [isIdle] using idle
  rw [follow, if_pos idle]

theorem dropIdleEnd_cons (first : List Char) (rest : List (List Char)) :
    dropIdleEnd (first :: rest) = first :: rest.rdropWhile isIdle :=
  rfl

theorem dropIdleEnd_concat {last : List Char} (busy : isIdle last = false)
    (before : List (List Char)) : dropIdleEnd (before ++ [last]) = before ++ [last] := by
  cases before with
  | nil => rfl
  | cons first rest =>
    rw [List.cons_append, dropIdleEnd_cons, List.rdropWhile_concat_neg _ _ _ (by simp [busy])]

theorem exists_idle_of_dropIdleEnd (parts : List (List Char)) :
    ∃ idle, parts = dropIdleEnd parts ++ idle ∧ ∀ part ∈ idle, isIdle part = true := by
  cases parts with
  | nil => exact ⟨[], rfl, by simp⟩
  | cons first rest =>
    refine ⟨rest.rtakeWhile isIdle, ?_, fun part member => List.mem_rtakeWhile_imp member⟩
    rw [dropIdleEnd_cons, List.cons_append, List.rdropWhile_append_rtakeWhile]

theorem dropIdleEnd_eq_nil_iff {parts : List (List Char)} :
    dropIdleEnd parts = [] ↔ parts = [] := by
  cases parts with
  | nil => simp [dropIdleEnd]
  | cons first rest => simp [dropIdleEnd_cons]

/-! ## Paths of parts -/

/-- The path of parts. -/
def ofParts (parts : List (List Char)) : String :=
  String.intercalate "/" (parts.map String.ofList)

theorem toList_ofParts (parts : List (List Char)) :
    (ofParts parts).toList = ['/'].intercalate parts := by
  rw [ofParts, String.toList_intercalate, List.map_map]
  have same : String.toList ∘ String.ofList = id := by
    funext cs
    exact String.toList_ofList
  rw [same, List.map_id]
  rfl

theorem rawParts_ofParts {parts : List (List Char)} (notNil : parts ≠ [])
    (whole : ∀ part ∈ parts, '/' ∉ part) : rawParts (ofParts parts).toList = parts := by
  rw [rawParts_eq_splitOn, toList_ofParts, List.splitOn_intercalate _ whole notNil]

theorem ofParts_rawParts (path : String) : ofParts (rawParts path.toList) = path := by
  rw [← String.toList_inj, toList_ofParts, rawParts_eq_splitOn, List.intercalate_splitOn]

theorem ofParts_append {parts others : List (List Char)} (notNil : parts ≠ [])
    (othersNotNil : others ≠ []) :
    ofParts (parts ++ others) = ofParts parts ++ "/" ++ ofParts others := by
  rw [← String.toList_inj, String.toList_append, String.toList_append]
  simp only [toList_ofParts]
  obtain ⟨other, more, rfl⟩ := List.exists_cons_of_ne_nil othersNotNil
  induction parts with
  | nil => exact absurd rfl notNil
  | cons part parts ih =>
    cases parts with
    | nil => rw [List.singleton_append, List.intercalate_cons_cons, List.intercalate_singleton]; rfl
    | cons next parts =>
      have ih := ih (List.cons_ne_nil _ _)
      rw [List.cons_append, List.cons_append, List.intercalate_cons_cons, ← List.cons_append, ih,
        List.intercalate_cons_cons]
      simp

theorem isUsable_iff {path : String} : isUsable path = true ↔ path ≠ "" ∧
    path.utf8ByteSize < 4096 ∧
    ∀ part ∈ rawParts path.toList, (String.ofList part).utf8ByteSize ≤ 255 := by
  simp [isUsable, and_assoc]

section Beginning

variable {path : String} {parts others : List (List Char)}
variable (split : rawParts path.toList = parts ++ others) (notNil : parts ≠ [])
include split notNil

/-- Parts at the beginning of a path make a path of these parts. -/
theorem rawParts_ofParts_beginning : rawParts (ofParts parts).toList = parts := by
  apply rawParts_ofParts notNil
  intro part member
  apply slash_not_mem_of_mem_rawParts
  rw [split]
  exact List.mem_append_left _ member

theorem isUsable_ofParts (usable : isUsable path = true) (othersNotNil : others ≠ [])
    (notEmpty : parts ≠ [[]]) : isUsable (ofParts parts) = true := by
  obtain ⟨-, size, sizes⟩ := isUsable_iff.mp usable
  have same := rawParts_ofParts_beginning split notNil
  have longer : path = ofParts parts ++ "/" ++ ofParts others := by
    rw [← ofParts_append notNil othersNotNil, ← split, ofParts_rawParts]
  apply isUsable_iff.mpr
  refine ⟨?_, ?_, ?_⟩
  · intro empty
    rw [empty] at same
    exact notEmpty same.symm
  · rw [longer, String.utf8ByteSize_append, String.utf8ByteSize_append] at size
    omega
  · rw [same]
    intro part member
    apply sizes
    rw [split]
    exact List.mem_append_left _ member

theorem isAbsolute_ofParts (othersNotNil : others ≠ []) (notEmpty : parts ≠ [[]]) :
    isAbsolute (ofParts parts) = isAbsolute path := by
  rw [Bool.eq_iff_iff, isAbsolute_iff, isAbsolute_iff, split,
    rawParts_ofParts_beginning split notNil]
  constructor
  · rintro ⟨more, -, rfl⟩
    exact ⟨_, List.append_ne_nil_of_right_ne_nil _ othersNotNil, rfl⟩
  · rintro ⟨more, -, begins⟩
    obtain ⟨first, rest, rfl⟩ := List.exists_cons_of_ne_nil notNil
    obtain ⟨rfl, -⟩ := List.cons.inj begins
    exact ⟨rest, fun single => notEmpty (by rw [single]), rfl⟩

end Beginning

theorem parent_of_rawParts {path : String} {before : List (List Char)} {last : List Char}
    (split : rawParts path.toList = before ++ [last]) (busy : isIdle last = false) :
    parent path = match dropIdleEnd before with
      | [] => "."
      | [[]] => "/"
      | parts => ofParts parts := by
  rw [parent, split, dropIdleEnd_concat busy, List.dropLast_concat]
  rfl

end QuayTimeline.FilePath
