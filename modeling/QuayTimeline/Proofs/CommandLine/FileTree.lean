import Mathlib.Data.List.Basic
import QuayTimeline.CommandLine.Host

/-! # Trees of files

To put a file changes what its names lead to and nothing else; a fresh name leads to nothing, so a
file that was put there and is erased again leaves the tree as it was. A file in a directory that is
there adds no directory. -/

namespace QuayTimeline.FileTree

variable {tree : FileTree} {names others directory : List String} {content : Bytes}

/-! ## Putting and erasing -/

theorem erase_eq_self (absent : ∀ f ∈ tree, f.1 ≠ names) : tree.erase names = tree := by
  rw [erase, List.filter_eq_self]
  intro f member
  exact decide_eq_true (absent f member)

theorem ne_of_mem_erase {f : List String × Bytes} (member : f ∈ tree.erase names) :
    f.1 ≠ names :=
  of_decide_eq_true (List.mem_filter.mp member).2

theorem put_of_absent (absent : ∀ f ∈ tree, f.1 ≠ names) :
    tree.put names content = tree ++ [(names, content)] := by
  rw [put, erase_eq_self absent]

theorem erase_put (absent : ∀ f ∈ tree, f.1 ≠ names) :
    (tree.put names content).erase names = tree := by
  rw [put_of_absent absent, erase, List.filter_append]
  have own : [(names, content)].filter (·.1 ≠ names) = [] := by simp
  rw [own, List.append_nil]
  exact erase_eq_self absent

theorem put_put (absent : ∀ f ∈ tree, f.1 ≠ names) (later : Bytes) :
    (tree.put names content).put names later = tree.put names later := by
  rw [put, erase_put absent, put_of_absent absent]

theorem file?_erase_self : (tree.erase names).file? names = none := by
  rw [file?, List.lookup_eq_none_iff]
  intro f member
  exact bne_iff_ne.mpr (ne_of_mem_erase member).symm

theorem file?_put_self : (tree.put names content).file? names = some content := by
  have gone : (tree.erase names).lookup names = none := file?_erase_self
  rw [file?, put, List.lookup_append, gone]
  simp

theorem file?_erase_of_ne (other : others ≠ names) :
    (tree.erase names).file? others = tree.file? others := by
  induction tree with
  | nil => rfl
  | cons f tree ih =>
    have ih : (tree.filter (·.1 ≠ names)).lookup others = tree.lookup others := ih
    rw [file?, file?, erase, List.filter_cons, List.lookup_cons]
    split
    · rw [List.lookup_cons, ih]
    · next same =>
      have same : f.1 = names := by simpa using same
      rw [ih, same, beq_false_of_ne other]

theorem file?_put_of_ne (other : others ≠ names) :
    (tree.put names content).file? others = tree.file? others := by
  have kept : (tree.erase names).lookup others = tree.lookup others := file?_erase_of_ne other
  have notNew : [(names, content)].lookup others = none := by
    rw [List.lookup_cons, beq_false_of_ne other]
    rfl
  rw [file?, put, List.lookup_append, kept, notNew, Option.or_none, file?]

/-! ## Directories -/

theorem isDirectory_iff : tree.isDirectory directory = true ↔
    ∃ f ∈ tree, directory <+: f.1 ∧ directory ≠ f.1 := by
  simp [isDirectory]

/-- A file adds the directories that lead to it. -/
theorem isDirectory_put_iff : (tree.put names content).isDirectory directory = true ↔
    tree.isDirectory directory = true ∨ directory <+: names ∧ directory ≠ names := by
  rw [isDirectory_iff, isDirectory_iff]
  constructor
  · rintro ⟨f, member, leads, below⟩
    obtain kept | added := List.mem_append.mp member
    · exact .inl ⟨f, List.mem_of_mem_filter kept, leads, below⟩
    · rw [List.mem_singleton] at added
      subst added
      exact .inr ⟨leads, below⟩
  · rintro (⟨f, member, leads, below⟩ | ⟨leads, below⟩)
    · by_cases same : f.1 = names
      · exact ⟨(names, content), by simp [put], same ▸ leads, same ▸ below⟩
      · exact ⟨f, by simp [put, erase, member, same], leads, below⟩
    · exact ⟨(names, content), by simp [put], leads, below⟩

theorem isDirectory_above {above : List String} (leads : above <+: directory)
    (isDirectory : tree.isDirectory directory = true) : tree.isDirectory above = true := by
  obtain ⟨f, member, below, notSame⟩ := isDirectory_iff.mp isDirectory
  apply isDirectory_iff.mpr
  refine ⟨f, member, leads.trans below, ?_⟩
  rintro rfl
  exact notSame (below.eq_of_length_le leads.length_le)

/-! ## Fresh names -/

theorem length_lt_of_mem {f : List String × Bytes} {name : String} (member : f ∈ tree)
    (memberName : name ∈ f.1) : name.length < tree.freshName.length := by
  have among : name.length ∈ tree.flatMap (·.1.map String.length) :=
    List.mem_flatMap.mpr ⟨f, member, List.mem_map_of_mem memberName⟩
  have longest : name.length ≤ (tree.flatMap (·.1.map String.length)).foldl max 0 := by
    rw [List.foldl_max, Nat.zero_max]
    exact List.le_max?_getD_of_mem among
  simp only [freshName, String.length_ofList, List.length_append, List.length_replicate]
  exact Nat.lt_of_le_of_lt longest (Nat.lt_add_of_pos_left (by decide))

theorem freshName_not_mem {f : List String × Bytes} (member : f ∈ tree) : tree.freshName ∉ f.1 := by
  intro memberName
  exact Nat.lt_irrefl _ (length_lt_of_mem member memberName)

end QuayTimeline.FileTree
