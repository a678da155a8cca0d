import QuayTimeline.Source
import QuayTimeline.Proofs.Flattening.ByDay
import Mathlib.Data.List.Basic

/-! # Sources under any requests

A caller may ask a source for its next item, for the number of items left, or for all of them, in
any order. A source that changes its items gives the answers of the source behind it, with the items
changed, and leaves that source as the same requests would. So a flattened source pulls nothing
ahead, drops nothing, and a fault of one item stays with that item. -/

namespace QuayTimeline

/-- What a caller can ask of a source. -/
inductive Request where
  | next
  | sizeHint
  | collect
deriving DecidableEq

/-- What a source replies. -/
inductive Answer (ι : Type) where
  | next (item? : Option ι)
  | sizeHint (hint : Nat × Option Nat)
  | collect (items : List ι)

def Answer.map {ι κ : Type} (f : ι → κ) : Answer ι → Answer κ
  | next item? => next (item?.map f)
  | sizeHint hint => sizeHint hint
  | collect items => collect (items.map f)

namespace Source

variable {σ ι κ : Type}

/-- Items that a source hands out until it has no more, and the state after them. -/
inductive Drains (source : Source σ ι) : σ → List ι → σ → Prop
  | ended {s : σ} (empty : source.next? s = none) : Drains source s [] s
  | pulled {s t u : σ} {item : ι} {items : List ι} (pull : source.next? s = some (item, t))
      (rest : Drains source t items u) : Drains source s (item :: items) u

/-- The answer of a source to one request, and the state after it. -/
inductive Replies (source : Source σ ι) : σ → Request → Answer ι → σ → Prop
  | ended {s : σ} (empty : source.next? s = none) : Replies source s .next (.next none) s
  | pulled {s t : σ} {item : ι} (pull : source.next? s = some (item, t)) :
      Replies source s .next (.next (some item)) t
  | sizeHint (s : σ) : Replies source s .sizeHint (.sizeHint (source.sizeHint s)) s
  | collected {s t : σ} {items : List ι} (drains : Drains source s items t) :
      Replies source s .collect (.collect items) t

/-- The answers of a source to requests in a row, and the state after them. -/
inductive Serves (source : Source σ ι) : σ → List Request → List (Answer ι) → σ → Prop
  | nil (s : σ) : Serves source s [] [] s
  | cons {s t u : σ} {request : Request} {answer : Answer ι} {requests : List Request}
      {answers : List (Answer ι)} (first : Replies source s request answer t)
      (rest : Serves source t requests answers u) :
      Serves source s (request :: requests) (answer :: answers) u

/-! ## One course only -/

theorem Drains.unique {source : Source σ ι} {s t u : σ} {items others : List ι}
    (first : Drains source s items t) (second : Drains source s others u) :
    items = others ∧ t = u := by
  induction first generalizing others with
  | ended empty =>
    cases second with
    | ended _ => exact ⟨rfl, rfl⟩
    | pulled pull _ => simp [empty] at pull
  | pulled pull _ ih =>
    cases second with
    | ended empty => simp [empty] at pull
    | pulled pull' rest =>
      obtain ⟨rfl, rfl⟩ : _ ∧ _ := by simpa [pull] using pull'
      obtain ⟨rfl, rfl⟩ := ih rest
      exact ⟨rfl, rfl⟩

theorem Replies.unique {source : Source σ ι} {s t u : σ} {request : Request}
    {answer other : Answer ι} (first : Replies source s request answer t)
    (second : Replies source s request other u) : answer = other ∧ t = u := by
  cases first with
  | ended empty =>
    cases second with
    | ended _ => exact ⟨rfl, rfl⟩
    | pulled pull => simp [empty] at pull
  | pulled pull =>
    cases second with
    | ended empty => simp [empty] at pull
    | pulled pull' => simpa [pull] using pull'
  | sizeHint =>
    cases second with
    | sizeHint => exact ⟨rfl, rfl⟩
  | collected drains =>
    cases second with
    | collected drains' =>
      obtain ⟨rfl, rfl⟩ := drains.unique drains'
      exact ⟨rfl, rfl⟩

theorem Serves.unique {source : Source σ ι} {s t u : σ} {requests : List Request}
    {answers others : List (Answer ι)} (first : Serves source s requests answers t)
    (second : Serves source s requests others u) : answers = others ∧ t = u := by
  induction first generalizing others with
  | nil =>
    cases second with
    | nil => exact ⟨rfl, rfl⟩
  | cons reply _ ih =>
    cases second with
    | cons reply' rest =>
      obtain ⟨rfl, rfl⟩ := reply.unique reply'
      obtain ⟨rfl, rfl⟩ := ih rest
      exact ⟨rfl, rfl⟩

theorem takeUpTo_of_drains {source : Source σ ι} {s t : σ} {items : List ι}
    (drains : Drains source s items t) {n : Nat} (enough : items.length ≤ n) :
    source.takeUpTo n s = (items, t) := by
  induction drains generalizing n with
  | ended empty => cases n <;> simp [takeUpTo, empty]
  | pulled pull _ ih =>
    cases n with
    | zero => simp at enough
    | succ n => simp [takeUpTo, pull, ih (Nat.le_of_succ_le_succ enough)]

/-! ## Changed items -/

variable {source : Source σ ι} (f : ι → κ)

theorem next?_map_eq_some_iff {s t : σ} {item : κ} :
    (source.map f).next? s = some (item, t) ↔
      ∃ raw, source.next? s = some (raw, t) ∧ f raw = item := by
  simp [map]

theorem next?_map_eq_none_iff {s : σ} :
    (source.map f).next? s = none ↔ source.next? s = none := by
  simp [map]

theorem drains_map_iff {s t : σ} {items : List κ} :
    Drains (source.map f) s items t ↔ ∃ raw, Drains source s raw t ∧ raw.map f = items := by
  constructor
  · intro drains
    induction drains with
    | ended empty => exact ⟨[], .ended ((next?_map_eq_none_iff f).mp empty), rfl⟩
    | pulled pull _ ih =>
      obtain ⟨raw, pullRaw, rfl⟩ := (next?_map_eq_some_iff f).mp pull
      obtain ⟨raws, rest, rfl⟩ := ih
      exact ⟨raw :: raws, .pulled pullRaw rest, rfl⟩
  · rintro ⟨raw, drains, rfl⟩
    induction drains with
    | ended empty => exact .ended ((next?_map_eq_none_iff f).mpr empty)
    | pulled pull _ ih => exact .pulled ((next?_map_eq_some_iff f).mpr ⟨_, pull, rfl⟩) ih

/-- One request: the answer of the source behind, changed, and the same state after it. -/
theorem replies_map_iff {s t : σ} {request : Request} {answer : Answer κ} :
    Replies (source.map f) s request answer t ↔
      ∃ raw, Replies source s request raw t ∧ raw.map f = answer := by
  constructor
  · intro reply
    cases reply with
    | ended empty => exact ⟨_, .ended ((next?_map_eq_none_iff f).mp empty), rfl⟩
    | pulled pull =>
      obtain ⟨raw, pullRaw, rfl⟩ := (next?_map_eq_some_iff f).mp pull
      exact ⟨_, .pulled pullRaw, rfl⟩
    | sizeHint => exact ⟨_, .sizeHint s, rfl⟩
    | collected drains =>
      obtain ⟨raw, drainsRaw, rfl⟩ := (drains_map_iff f).mp drains
      exact ⟨_, .collected drainsRaw, rfl⟩
  · rintro ⟨raw, reply, rfl⟩
    cases reply with
    | ended empty => exact .ended ((next?_map_eq_none_iff f).mpr empty)
    | pulled pull => exact .pulled ((next?_map_eq_some_iff f).mpr ⟨_, pull, rfl⟩)
    | sizeHint => exact .sizeHint s
    | collected drains => exact .collected ((drains_map_iff f).mpr ⟨_, drains, rfl⟩)

/-- All requests: the answers of the source behind, changed, and the same state after them. -/
theorem serves_map_iff {s t : σ} {requests : List Request} {answers : List (Answer κ)} :
    Serves (source.map f) s requests answers t ↔
      ∃ raw, Serves source s requests raw t ∧ raw.map (Answer.map f) = answers := by
  constructor
  · intro serves
    induction serves with
    | nil s => exact ⟨[], .nil s, rfl⟩
    | cons reply _ ih =>
      obtain ⟨raw, replyRaw, rfl⟩ := (replies_map_iff f).mp reply
      obtain ⟨raws, rest, rfl⟩ := ih
      exact ⟨raw :: raws, .cons replyRaw rest, rfl⟩
  · rintro ⟨raw, serves, rfl⟩
    induction serves with
    | nil s => exact .nil s
    | cons reply _ ih => exact .cons ((replies_map_iff f).mpr ⟨_, reply, rfl⟩) ih

end Source

/-! ## Lists of items -/

/-- The number of items pulled after requests, when some were pulled before them. -/
def pulledAfter (length before : Nat) (requests : List Request) : Nat :=
  if .collect ∈ requests then length else min (before + requests.count .next) length

theorem pulledAfter_cons {length before : Nat} (bound : before ≤ length) (request : Request)
    (requests : List Request) :
    pulledAfter length before (request :: requests) =
      pulledAfter length (pulledAfter length before [request]) requests := by
  cases request with
  | next =>
    simp only [pulledAfter, List.mem_cons, reduceCtorEq, false_or, List.count_cons_self,
      List.not_mem_nil, if_false, List.count_nil]
    split
    · rfl
    · omega
  | sizeHint => simp [pulledAfter, bound]
  | collect => simp [pulledAfter]

namespace Cursor

open Source

variable {ι κ : Type}

/-- The source over a list that estimates in any way how many items are left. -/
def estimating (hint : List ι → Nat × Option Nat) : Source (Cursor ι) ι :=
  { source with sizeHint := fun cursor => hint cursor.upcoming }

/-- The place in a list after a number of its items. -/
def after (items : List ι) (n : Nat) : Cursor ι :=
  ⟨items.drop n, n⟩

/-- What a source over a list replies after a number of its items. -/
def replyAfter (hint : List ι → Nat × Option Nat) (items : List ι) (n : Nat) :
    Request → Answer ι
  | .next => .next items[n]?
  | .sizeHint => .sizeHint (hint (items.drop n))
  | .collect => .collect (items.drop n)

variable {hint : List ι → Nat × Option Nat} {items : List ι}

theorem next?_after_of_lt {n : Nat} (bound : n < items.length) :
    (estimating hint).next? (after items n) = some (items[n], after items (n + 1)) := by
  have split := List.drop_eq_getElem_cons bound
  simp only [estimating, source, after, split]

theorem next?_after_length :
    (estimating hint).next? (after items items.length) = none := by
  simp [estimating, source, after]

theorem drains_upcoming (upcoming : List ι) (n : Nat) :
    Drains (estimating hint) ⟨upcoming, n⟩ upcoming ⟨[], n + upcoming.length⟩ := by
  induction upcoming generalizing n with
  | nil => exact .ended rfl
  | cons item upcoming ih =>
    have length : n + (item :: upcoming).length = n + 1 + upcoming.length := by
      simp only [List.length_cons]
      omega
    rw [length]
    exact .pulled rfl (ih (n + 1))

theorem drains_after {n : Nat} (bound : n ≤ items.length) :
    Drains (estimating hint) (after items n) (items.drop n) (after items items.length) := by
  have drains : Drains (estimating hint) (after items n) _ _ := drains_upcoming (items.drop n) n
  rwa [List.length_drop, Nat.add_sub_cancel' bound, ← List.drop_length (l := items)] at drains

theorem replies_after {n : Nat} (bound : n ≤ items.length) (request : Request) :
    Replies (estimating hint) (after items n) request (replyAfter hint items n request)
      (after items (pulledAfter items.length n [request])) := by
  cases request with
  | next =>
    by_cases more : n < items.length
    · have one : pulledAfter items.length n [.next] = n + 1 := by
        simp [pulledAfter]
        omega
      rw [one, replyAfter, List.getElem?_eq_getElem more]
      exact .pulled (next?_after_of_lt more)
    · obtain rfl : n = items.length := by omega
      have none : pulledAfter items.length items.length [.next] = items.length := by
        simp [pulledAfter]
      rw [none, replyAfter, List.getElem?_eq_none (Nat.le_refl _)]
      exact .ended next?_after_length
  | sizeHint =>
    have none : pulledAfter items.length n [.sizeHint] = n := by simp [pulledAfter, bound]
    rw [none]
    exact .sizeHint _
  | collect => exact .collected (drains_after bound)

theorem exists_serves_after {n : Nat} (bound : n ≤ items.length) (requests : List Request) :
    ∃ answers, Serves (estimating hint) (after items n) requests answers
        (after items (pulledAfter items.length n requests)) ∧
      ∀ j : Nat, answers[j]? = requests[j]?.map
        (replyAfter hint items (pulledAfter items.length n (requests.take j))) := by
  induction requests generalizing n with
  | nil =>
    have none : pulledAfter items.length n [] = n := by simp [pulledAfter, bound]
    use []
    rw [none]
    exact ⟨.nil _, by simp⟩
  | cons request requests ih =>
    have boundNext : pulledAfter items.length n [request] ≤ items.length := by
      rw [pulledAfter]
      split <;> omega
    obtain ⟨answers, serves, each⟩ := ih boundNext
    use replyAfter hint items n request :: answers
    constructor
    · rw [pulledAfter_cons bound]
      exact .cons (replies_after bound request) serves
    · intro j
      cases j with
      | zero => simp [pulledAfter, bound]
      | succ j =>
        rw [List.getElem?_cons_succ, List.getElem?_cons_succ, List.take_succ_cons,
          pulledAfter_cons bound, each]

/-- A source over a list is drained by as many pulls as there are items left. -/
theorem drain_after (f : ι → κ) {n : Nat} (bound : n ≤ items.length) :
    drain ((estimating hint).map f) (after items n) =
      ((items.drop n).map f, after items items.length) := by
  have drains : Drains (estimating hint) (after items n) _ _ := drains_after bound
  apply takeUpTo_of_drains ((drains_map_iff f).mpr ⟨_, drains, rfl⟩)
  simp [after]

end Cursor

/-! ## Flattened sources -/

theorem Answer.map_injective {ι κ : Type} {f : ι → κ} (injective : Function.Injective f) :
    Function.Injective (Answer.map f) := by
  intro a b same
  cases a <;> cases b <;> simp only [Answer.map, reduceCtorEq, next.injEq, sizeHint.injEq,
    collect.injEq] at same ⊢
  · exact Option.map_injective injective same
  · exact same
  · exact List.map_injective_iff.mpr injective same

theorem mapError_flattening_injective {ε α : Type} :
    Function.Injective (Except.mapError (α := α) (SourceError.flattening (ε := ε))) := by
  intro a b same
  cases a <;> cases b <;> simp_all [Except.mapError]

namespace Source

variable {σ ε : Type} (rules : FlatteningRules) (zone : Zone)

/-- On a source that cannot fail both ways to flatten do the same. -/
theorem tryFlattened_map_ok (source : Source σ StopPlace) :
    (source.map (Except.ok (ε := ε))).tryFlattened rules zone =
      (source.flattened rules zone).map (Except.mapError .flattening) := by
  simp only [tryFlattened, flattened, map, Option.map_map]
  rfl

/-- A flattened source answers any requests, in any order, as the source behind it does, with each
item flattened on its own, and leaves that source in the same state. So over a list of items each
pull gives the next item, flattened, up to the end of the list; a fault of an item ends nothing; and
the number of items left is estimated as before. Without faults of the source, the source that
cannot fail gives the same answers. -/
theorem tryFlattened_step_by_step :
    (∀ (τ : Type) (source : Source τ (Except ε StopPlace)) (s t : τ) (requests : List Request)
      (answers : List (Answer (Except (SourceError ε) StopPlace))),
      Serves (source.tryFlattened rules zone) s requests answers t ↔
        ∃ raw, Serves source s requests raw t ∧
          raw.map (Answer.map (flattenItem rules zone)) = answers) ∧
    (∀ (items : List (Except ε StopPlace)) (hint : List (Except ε StopPlace) → Nat × Option Nat)
      (requests : List Request),
      let adapter := (Cursor.estimating hint).tryFlattened rules zone
      let reached := Cursor.after items (pulledAfter items.length 0 requests)
      ∃ answers, Serves adapter (.ofList items) requests answers reached ∧
        (∀ others t, Serves adapter (.ofList items) requests others t →
          others = answers ∧ t = reached) ∧
        ∀ j, let n := pulledAfter items.length 0 (requests.take j)
          (requests[j]? = some .next →
            answers[j]? = some (.next (items[n]?.map (flattenItem rules zone)))) ∧
          (requests[j]? = some .sizeHint →
            answers[j]? = some (.sizeHint (hint (items.drop n)))) ∧
          (requests[j]? = some .collect →
            answers[j]? = some (.collect ((items.drop n).map (flattenItem rules zone))))) ∧
    ∀ (τ : Type) (source : Source τ StopPlace) (s t : τ) (requests : List Request)
      (answers : List (Answer (Except FlatteningError StopPlace))),
      Serves (source.flattened rules zone) s requests answers t ↔
        Serves ((source.map (Except.ok (ε := ε))).tryFlattened rules zone) s requests
          (answers.map (Answer.map (Except.mapError .flattening))) t := by
  refine ⟨?_, ?_, ?_⟩
  · intro τ source s t requests answers
    exact serves_map_iff _
  · intro items hint requests adapter reached
    obtain ⟨raw, serves, each⟩ : ∃ raw, Serves (Cursor.estimating hint) _ requests raw _ ∧ _ :=
      Cursor.exists_serves_after (Nat.zero_le items.length) requests
    have served := (serves_map_iff (flattenItem rules zone)).mpr ⟨raw, serves, rfl⟩
    refine ⟨_, served, fun others t other => ?_, fun j => ?_⟩
    · exact other.unique served
    · refine ⟨fun asked => ?_, fun asked => ?_, fun asked => ?_⟩ <;>
        simp [each, asked, Cursor.replyAfter, Answer.map]
  · intro τ source s t requests answers
    rw [tryFlattened_map_ok, serves_map_iff]
    constructor
    · intro serves
      exact ⟨answers, serves, rfl⟩
    · rintro ⟨raw, serves, same⟩
      have injective := Answer.map_injective
        (mapError_flattening_injective (ε := ε) (α := StopPlace))
      rwa [← List.map_injective_iff.mpr injective same]

/-- Stop places between which a source fails; one of them cannot be flattened. -/
def interruptedItems : List (Except String StopPlace) :=
  [.ok twoVersions, .error "connection lost", .ok clashingVersions, .ok .blank]

/-- Both failures are passed on in their places, and what follows them is still there. -/
theorem tryFlattened_step_by_step_interruptedItems :
    let adapter := (Cursor.estimating fun items => (0, some items.length)).tryFlattened
      .default (.fixed (.east 0))
    ∃ answers place error, Serves adapter (.ofList interruptedItems)
        [.next, .next, .next, .sizeHint, .collect, .next] answers
        (Cursor.after interruptedItems 4) ∧
      place.quays.length = 2 ∧ answers[0]? = some (.next (some (.ok place))) ∧
      answers[1]? = some (.next (some (.error (.source "connection lost")))) ∧
      answers[2]? = some (.next (some (.error (.flattening error)))) ∧
      answers[3]? = some (.sizeHint (0, some 1)) ∧
      answers[4]? = some (.collect [.ok .blank]) ∧ answers[5]? = some (.next none) := by
  obtain ⟨answers, serves, -, each⟩ := (tryFlattened_step_by_step .default
    (.fixed (.east 0))).2.1 interruptedItems (fun items => (0, some items.length))
    [.next, .next, .next, .sizeHint, .collect, .next]
  obtain ⟨place, flattened, two⟩ := StopPlace.exists_flatten_twoVersions
  obtain ⟨error, clash⟩ := StopPlace.exists_flatten_clashingVersions
  have first := (each 0).1 rfl
  have third := (each 2).1 rfl
  change _ = some (Answer.next (some ((twoVersions.flatten .default _).mapError _))) at first
  change _ = some (Answer.next (some ((clashingVersions.flatten .default _).mapError _))) at third
  rw [flattened] at first
  rw [clash] at third
  exact ⟨answers, place, error, serves, two, first, (each 1).1 rfl, third, (each 3).2.1 rfl,
    (each 4).2.2 rfl, (each 5).1 rfl⟩

end Source

end QuayTimeline
