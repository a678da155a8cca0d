/-! # Key values

The open part of a record: lists of items under keys, sorted by key. Each key occurs
once, so equal contents are equal values. -/

namespace QuayTimeline

/-- A key with its items. -/
abbrev KeyValue := String × List String

/-- Entries in strict order of their keys. -/
def KeyValue.Sorted (entries : List KeyValue) : Prop :=
  entries.Pairwise fun a b => a.1 < b.1

namespace KeyValue

def insertInto (key : String) (items : List String) : List KeyValue → List KeyValue
  | [] => [(key, items)]
  | entry :: entries =>
    if key < entry.1 then (key, items) :: entry :: entries
    else if key = entry.1 then (key, items) :: entries
    else entry :: insertInto key items entries

theorem mem_insertInto {key : String} {items : List String} {entries : List KeyValue}
    {entry : KeyValue} (h : entry ∈ insertInto key items entries) :
    entry = (key, items) ∨ entry ∈ entries := by
  induction entries with
  | nil => exact .inl (List.mem_singleton.mp h)
  | cons first rest ih =>
    simp only [insertInto] at h
    split at h
    · rcases List.mem_cons.mp h with h | h
      · exact .inl h
      · exact .inr h
    · split at h
      · rcases List.mem_cons.mp h with h | h
        · exact .inl h
        · exact .inr (List.mem_cons_of_mem _ h)
      · rcases List.mem_cons.mp h with h | h
        · exact .inr (h ▸ List.mem_cons_self)
        · exact (ih h).imp_right (List.mem_cons_of_mem _)

theorem sorted_insertInto {key : String} {items : List String} {entries : List KeyValue}
    (h : Sorted entries) : Sorted (insertInto key items entries) := by
  induction entries with
  | nil => exact List.pairwise_singleton _ _
  | cons first rest ih =>
    obtain ⟨hfirst, hrest⟩ := List.pairwise_cons.mp h
    simp only [insertInto]
    split
    · next hlt =>
      refine List.pairwise_cons.mpr ⟨fun e he => ?_, h⟩
      rcases List.mem_cons.mp he with he | he
      · exact he ▸ hlt
      · exact String.lt_trans hlt (hfirst e he)
    · next hlt =>
      split
      · next heq =>
        exact List.pairwise_cons.mpr ⟨fun e he => heq ▸ hfirst e he, hrest⟩
      · next hne =>
        refine List.pairwise_cons.mpr ⟨fun e he => ?_, ih hrest⟩
        rcases mem_insertInto he with he | he
        · have hle : first.1 ≤ key := String.not_lt.mp hlt
          have hgt : first.1 < key :=
            String.not_le.mp fun hge => hne (String.le_antisymm hge hle)
          exact he ▸ hgt
        · exact hfirst e he

end KeyValue

/-- Lists of items under keys. -/
@[ext] structure KeyValues where
  entries : List KeyValue
  sorted : KeyValue.Sorted entries
deriving DecidableEq

namespace KeyValues

def empty : KeyValues := ⟨[], .nil⟩

instance : Inhabited KeyValues := ⟨empty⟩

def get? (kvs : KeyValues) (key : String) : Option (List String) :=
  kvs.entries.lookup key

/-- Puts items under a key, in place of those there. -/
def insert (kvs : KeyValues) (key : String) (items : List String) : KeyValues :=
  ⟨KeyValue.insertInto key items kvs.entries, KeyValue.sorted_insertInto kvs.sorted⟩

def erase (kvs : KeyValues) (key : String) : KeyValues :=
  ⟨kvs.entries.filter (·.1 ≠ key), kvs.sorted.filter _⟩

/-- The key values of a list of entries; of a repeated key the last one counts. -/
def ofList (entries : List KeyValue) : KeyValues :=
  entries.foldl (fun kvs e => kvs.insert e.1 e.2) empty

end KeyValues

end QuayTimeline
