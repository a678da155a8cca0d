import QuayTimeline.Proofs.Flattening.ByDay
import QuayTimeline.Proofs.Record.Attributes
import QuayTimeline.Proofs.Record.NormalForm

/-! # What is carried along

From the text of a stop place to the text of the flattened one, attributes go through two records.
The text that comes out has all of them that the first text has, merged, and no others: those of the
stop place itself, and on each quay those of the quay that it was made from. -/

namespace QuayTimeline

open Json (Tree)

variable {rules : FlatteningRules} {zone : Zone} {place result : StopPlace}

/-- Where a quay at a position of a flattened stop place comes from: from a version that it is a
copy of, or from the same position of a stop place without quays to flatten. -/
inductive StopPlace.IsMadeFrom (rules : FlatteningRules) (place : StopPlace) (j : Nat) (r : Quay)
    (i : Nat) (p : Quay) : Prop
  | copied {code : PublicCode} {v : Validity} {w : Version PlacedQuay}
      (taken : r.IsTakenFrom rules place.quays code v w) (owner : w.owner = ⟨p, i⟩)
  | left (none : ¬ ∃ q ∈ place.quays, rules.acceptsSource q.sourceType? = true)
      (position : i = j) (same : r = p)

namespace StopPlace

theorem exists_isMadeFrom (flattened : place.flatten rules zone = .ok result) {j : Nat} {r : Quay}
    (there : result.quays[j]? = some r) :
    ∃ i p, place.quays[i]? = some p ∧ place.IsMadeFrom rules j r i p := by
  by_cases accepted : place.quays.any (rules.acceptsSource ·.sourceType?) = true
  · obtain ⟨fragments, quays, resolved, copied, rfl⟩ := (flatten_eq_ok_iff accepted).mp flattened
    obtain ⟨e, memberE, copiedE⟩ := (mem_of_mapM_eq_ok copied).mp (List.mem_of_getElem? there)
    obtain ⟨w, taken, -⟩ := exists_isTakenFrom resolved memberE copiedE
    exact ⟨w.owner.position, w.owner.quay, taken.original.placed, .copied taken rfl⟩
  · rw [flatten_of_not_accepted accepted] at flattened
    cases flattened
    exact ⟨j, r, there, .left (mt List.any_eq_true.mpr accepted) rfl rfl⟩

theorem IsMadeFrom.others {i j : Nat} {p r : Quay} (madeFrom : place.IsMadeFrom rules j r i p) :
    r.others = p.others := by
  cases madeFrom with
  | copied taken owner =>
    have others := taken.copy.others
    rw [owner] at others
    exact others
  | left _ _ same => rw [same]

theorem IsMadeFrom.keyValues {i j : Nat} {p r : Quay} (madeFrom : place.IsMadeFrom rules j r i p)
    {key : String} (notPriority : key ≠ VersionKeys.priority) (notStart : key ≠ VersionKeys.start)
    (notLast : key ≠ VersionKeys.last) : r.keyValues.get? key = p.keyValues.get? key := by
  cases madeFrom with
  | copied taken owner =>
    have keyValues := taken.copy.keyValues key notPriority notStart notLast
    rw [owner] at keyValues
    exact keyValues
  | left _ _ same => rw [same]

theorem eq_of_flatten (flattened : place.flatten rules zone = .ok result) :
    { result with quays := place.quays } = place := by
  by_cases accepted : place.quays.any (rules.acceptsSource ·.sourceType?) = true
  · obtain ⟨_, quays, -, -, rfl⟩ := (flatten_eq_ok_iff accepted).mp flattened
    rfl
  · rw [flatten_of_not_accepted accepted] at flattened
    cases flattened
    rfl

/-- The text of a flattened stop place has the attributes that the first text has, merged, those of
the stop place and for each quay those of the quay it was made from. It is read as the flattened
stop place, which has all other fields of the first one, and on the quays all other key values. -/
theorem attributes_of_flatten {cs : List Char} (read : read cs = .ok place)
    (integers : place.HoldsIntegers) (flattened : place.flatten rules zone = .ok result) :
    ∃ t u, Tree.ofText cs = (t, []) ∧ Tree.ofText result.text = (u, []) ∧
      u.HasAttributesOf fields (greatestDepth - 1) t ∧
      StopPlace.read result.text = .ok result ∧ { result with quays := place.quays } = place ∧
      List.Forall₂ (fun t p => Quay.decode (greatestDepth - 3) t = .ok p)
        (t.itemsUnder "quays") place.quays ∧
      List.Forall₂ (fun u r => Quay.decode (greatestDepth - 3) u = .ok r)
        (u.itemsUnder "quays") result.quays ∧
      ∀ (j : Nat) (s : Tree) (r : Quay), (u.itemsUnder "quays")[j]? = some s →
        result.quays[j]? = some r →
        ∃ (i : Nat) (o : Tree) (p : Quay), (t.itemsUnder "quays")[i]? = some o ∧
          place.quays[i]? = some p ∧ place.IsMadeFrom rules j r i p ∧
          s.HasAttributesOf Quay.fields (greatestDepth - 3) o ∧
          ∀ key, key ≠ VersionKeys.priority → key ≠ VersionKeys.start → key ≠ VersionKeys.last →
            r.keyValues.get? key = p.keyValues.get? key := by
  obtain ⟨decoded, rest⟩ := Decoder.read_eq_ok_iff.mp read
  have kept := (isKept_of_read read).flatten flattened
  have integers := integers.flatten flattened
  have same := eq_of_flatten flattened
  have readAgain := read_text kept integers
  have written : Tree.ofText result.text = (result.encode.tree, []) :=
    Tree.ofText_text (numbersAreIntegers_encode integers)
  have decodedAgain : decode result.encode.tree = .ok result := decode_tree kept integers
  have quaysRead := forall₂_of_decode decoded
  refine ⟨_, _, Prod.ext rfl rest, written, ?_, readAgain, same, quaysRead,
    forall₂_of_decode decodedAgain, ?_⟩
  · obtain ⟨values, found, merged⟩ := attributes_of_decode decoded
    have others : result.others = place.others := by rw [← same]
    rw [encode_eq_object]
    exact Tree.hasAttributesOf_object found (others.trans merged)
      result.names_fieldMembers_sublist kept.others integers.others
  · intro j s r written there
    rw [itemsUnder_tree kept.others, List.getElem?_map, there] at written
    obtain rfl : r.encode.tree = s := Option.some.inj written
    obtain ⟨i, p, placed, madeFrom⟩ := exists_isMadeFrom flattened there
    obtain ⟨o, read, decodedQuay⟩ := exists_getElem?_of_forall₂ quaysRead placed
    refine ⟨i, o, p, read, placed, madeFrom, ?_, fun key => madeFrom.keyValues⟩
    obtain ⟨values, found, merged⟩ := Quay.attributes_of_decode decodedQuay
    have member := List.mem_of_getElem? there
    rw [Quay.encode_eq_object]
    exact Tree.hasAttributesOf_object found (madeFrom.others.trans merged)
      r.names_fieldMembers_sublist (kept.quays r member) (integers.quays r member)

/-- A text with attributes that repeat before and after the fields, on the stop place and on a quay,
one of them with a name like that of a field. -/
def repeatingText : List Char :=
  inBraces <| List.flatten ["\"levels\":0,\"quays\":[".toList,
    inBraces <| List.flatten ["\"shelter\":1,\"Name\":null,\"publicCode\":\"H1\",".toList,
      "\"privateCode\":[\"HSL/JORE-4\",\"x\"],\"keyValues\":".toList,
      inBraces "\"zone\":[\"A\"],\"validityStart\":[\"2024-03-01\"],\"priority\":[\"20\"]".toList,
      ",\"shelter\":2".toList],
    "],\"levels\":[-1,2]".toList]

/-- The text of that stop place when it is flattened. -/
def repeatingTextFlattened : List Char :=
  inBraces <| List.flatten ["\"version\":0,\"quays\":[".toList,
    inBraces <| List.flatten ["\"version\":0,\"publicCode\":\"H1\",\"privateCode\":".toList,
      inBraces "\"type\":\"HSL/JORE-4\",\"value\":\"x\"".toList, ",\"keyValues\":".toList,
      inBraces "\"priority\":[\"20\"],\"validityStart\":[\"2024-03-01\"],\"zone\":[\"A\"]".toList,
      ",\"validBetween\":".toList, inBraces "\"fromDate\":\"2024-03-01T00:00:00Z\"".toList,
      ",\"shelter\":2,\"Name\":null".toList],
    "],\"levels\":[-1,2]".toList]

theorem attributes_of_flatten_repeatingText :
    ∃ place result, read repeatingText = .ok place ∧ place.HoldsIntegers ∧
      place.flatten .default (.fixed (.east 0)) = .ok result ∧
      result.text = repeatingTextFlattened ∧ ∃ t u, Tree.ofText repeatingText = (t, []) ∧
        Tree.ofText repeatingTextFlattened = (u, []) ∧
        u.HasAttributesOf fields (greatestDepth - 1) t := by
  have checked : (read repeatingText).toOption.any (fun place =>
      decide (HoldIntegers place.others ∧ ∀ q ∈ place.quays, HoldIntegers q.others) &&
        (place.flatten .default (.fixed (.east 0))).toOption.any fun result =>
          decide (result.text = repeatingTextFlattened)) = true := by decide +kernel
  cases read : StopPlace.read repeatingText with
  | error error =>
    rw [read] at checked
    cases checked
  | ok place =>
    rw [read] at checked
    obtain ⟨integers, checked⟩ := Bool.and_eq_true_iff.mp checked
    have integers : place.HoldsIntegers :=
      ⟨(of_decide_eq_true integers).1, (of_decide_eq_true integers).2⟩
    cases flattened : place.flatten .default (.fixed (.east 0)) with
    | error error =>
      rw [flattened] at checked
      cases checked
    | ok result =>
      rw [flattened] at checked
      have written : result.text = repeatingTextFlattened := of_decide_eq_true checked
      obtain ⟨t, u, first, second, attributes, -⟩ := attributes_of_flatten read integers flattened
      exact ⟨place, result, rfl, integers, flattened, written, t, u, first, written ▸ second,
        attributes⟩

end StopPlace

end QuayTimeline
