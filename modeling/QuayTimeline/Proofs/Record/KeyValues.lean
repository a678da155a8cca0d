import Mathlib.Data.List.Sort
import QuayTimeline.Record.KeyValues

/-! # Looking up key values

Key values are known by what they give under each key, since their entries are in strict order. -/

namespace QuayTimeline

namespace KeyValue

theorem lookup_cons (other : String) (first : KeyValue) (rest : List KeyValue) :
    (first :: rest).lookup other =
      if other = first.1 then some first.2 else rest.lookup other := by
  rw [List.lookup_cons]
  by_cases same : other = first.1
  · simp [same]
  · simp [same, beq_eq_false_iff_ne.mpr same]

theorem lookup_eq_some_iff {entries : List KeyValue} (sorted : Sorted entries) {key : String}
    {items : List String} : entries.lookup key = some items ↔ (key, items) ∈ entries := by
  induction entries with
  | nil => simp
  | cons first rest ih =>
    obtain ⟨later, sortedRest⟩ := List.pairwise_cons.mp sorted
    rw [lookup_cons, List.mem_cons]
    split
    next same =>
      constructor
      · rintro ⟨rfl⟩
        exact .inl (Prod.ext same rfl)
      · rintro (rfl | member)
        · rfl
        -- All later keys are greater, so none is looked up under the first one.
        · exact absurd (later _ member) (same ▸ String.lt_irrefl _)
    next distinct =>
      rw [ih sortedRest]
      exact ⟨.inr, fun member => member.resolve_left fun same => distinct (congrArg Prod.fst same)⟩

theorem lookup_insertInto (key other : String) (items : List String) (entries : List KeyValue) :
    (insertInto key items entries).lookup other =
      if other = key then some items else entries.lookup other := by
  induction entries with
  | nil => exact lookup_cons other (key, items) []
  | cons first rest ih =>
    simp only [insertInto]
    split
    next => exact lookup_cons other (key, items) (first :: rest)
    split
    next same =>
      rw [lookup_cons, lookup_cons, ← same]
      split <;> rfl
    next distinct =>
      rw [lookup_cons, lookup_cons, ih]
      by_cases same : other = first.1
      · rw [if_pos same, if_pos same, if_neg fun new => distinct (new.symm.trans same)]
      · rw [if_neg same, if_neg same]

/-- Entries in order are put one behind the other. -/
theorem insertInto_of_lt {key : String} {items : List String} {entries : List KeyValue}
    (below : ∀ e ∈ entries, e.1 < key) :
    insertInto key items entries = entries ++ [(key, items)] := by
  induction entries with
  | nil => rfl
  | cons first rest ih =>
    have lower := below first List.mem_cons_self
    have notBelow : ¬ key < first.1 := fun above =>
      String.lt_irrefl _ (String.lt_trans lower above)
    have distinct : key ≠ first.1 := fun same => String.lt_irrefl first.1 (same ▸ lower)
    rw [insertInto, if_neg notBelow, if_neg distinct,
      ih fun e member => below e (List.mem_cons_of_mem _ member)]
    rfl

end KeyValue

namespace KeyValues

variable {kvs : KeyValues} {key other : String} {items : List String}

theorem get?_eq_some_iff : kvs.get? key = some items ↔ (key, items) ∈ kvs.entries :=
  KeyValue.lookup_eq_some_iff kvs.sorted

theorem get?_insert (kvs : KeyValues) (key other : String) (items : List String) :
    (kvs.insert key items).get? other = if other = key then some items else kvs.get? other :=
  KeyValue.lookup_insertInto key other items kvs.entries

theorem get?_erase (kvs : KeyValues) (key other : String) :
    (kvs.erase key).get? other = if other = key then none else kvs.get? other := by
  rw [Option.ext_iff]
  intro items
  rw [get?_eq_some_iff, erase, List.mem_filter]
  split
  next same => simp [same]
  next distinct => simp [distinct, get?_eq_some_iff]

/-- Key values that give the same under every key are equal. -/
theorem eq_of_get?_eq {kvs others : KeyValues} (same : ∀ key, kvs.get? key = others.get? key) :
    kvs = others := by
  have irreflexive : Std.Irrefl fun a b : KeyValue => a.1 < b.1 := ⟨fun a => String.lt_irrefl a.1⟩
  have antisymmetric : Std.Antisymm fun a b : KeyValue => a.1 < b.1 :=
    ⟨fun a b before after => absurd (String.lt_trans before after) (String.lt_irrefl _)⟩
  refine KeyValues.ext (List.Pairwise.eq_of_mem_iff kvs.sorted others.sorted fun entry => ?_)
  rw [← get?_eq_some_iff, ← get?_eq_some_iff, same]

theorem entries_foldl_insert {entries : List KeyValue} (kvs : KeyValues)
    (sorted : KeyValue.Sorted (kvs.entries ++ entries)) :
    (entries.foldl (fun kvs e => kvs.insert e.1 e.2) kvs).entries = kvs.entries ++ entries := by
  induction entries generalizing kvs with
  | nil => exact (List.append_nil _).symm
  | cons first rest ih =>
    have inserted : (kvs.insert first.1 first.2).entries = kvs.entries ++ [first] :=
      KeyValue.insertInto_of_lt fun e member =>
        (List.pairwise_append.mp sorted).2.2 e member first List.mem_cons_self
    rw [List.append_cons, ← inserted] at sorted
    rw [List.foldl_cons, ih _ sorted, inserted, ← List.append_cons]

theorem ofList_entries (kvs : KeyValues) : ofList kvs.entries = kvs :=
  KeyValues.ext (entries_foldl_insert empty kvs.sorted)

end KeyValues

end QuayTimeline
