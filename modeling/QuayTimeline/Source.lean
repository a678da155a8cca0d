import QuayTimeline.Flattening

/-! # Sources of stop places

A source hands out one item at a time and may estimate how many are left. Flattening a
source flattens each item as it is pulled: it pulls nothing ahead, drops nothing, and a
fault of one item does not touch the next. -/

namespace QuayTimeline

/-- A source with states `σ` and items `ι`. -/
structure Source (σ ι : Type) where
  /-- The next item and the state after it; none at the end. -/
  next? : σ → Option (ι × σ)
  /-- The least and, if known, the greatest number of items left. -/
  sizeHint : σ → Nat × Option Nat

namespace Source

variable {σ ι κ : Type}

/-- The source with each item changed as it is pulled. -/
def map (f : ι → κ) (source : Source σ ι) : Source σ κ where
  next? state := (source.next? state).map fun (item, state) => (f item, state)
  sizeHint := source.sizeHint

/-- Pulls items up to a number, and returns them with the state after them. -/
def takeUpTo (source : Source σ ι) : Nat → σ → List ι × σ
  | 0, state => ([], state)
  | n + 1, state =>
    match source.next? state with
    | none => ([], state)
    | some (item, state) =>
      let (items, state) := source.takeUpTo n state
      (item :: items, state)

end Source

/-- Why an item of a source that can fail is none. -/
inductive SourceError (ε : Type) where
  /-- The source failed. -/
  | source (cause : ε)
  /-- The item could not be flattened. -/
  | flattening (cause : FlatteningError)

def sourceFailedMessage : String := "record source failed"

/-- A stop place of a source that can fail, flattened. -/
def flattenItem {ε : Type} (rules : FlatteningRules) (zone : Zone) :
    Except ε StopPlace → Except (SourceError ε) StopPlace
  | .ok place => (place.flatten rules zone).mapError .flattening
  | .error cause => .error (.source cause)

namespace Source

variable {σ ε : Type}

def flattened (rules : FlatteningRules) (zone : Zone) (source : Source σ StopPlace) :
    Source σ (Except FlatteningError StopPlace) :=
  source.map (StopPlace.flatten rules zone)

/-- The stop places of a source that can fail, flattened; its failures are passed on. -/
def tryFlattened (rules : FlatteningRules) (zone : Zone)
    (source : Source σ (Except ε StopPlace)) : Source σ (Except (SourceError ε) StopPlace) :=
  source.map (flattenItem rules zone)

end Source

/-- A place in a list of items, with the number of those pulled before. -/
structure Cursor (ι : Type) where
  upcoming : List ι
  pulled : Nat

namespace Cursor

variable {ι κ : Type}

def ofList (items : List ι) : Cursor ι := ⟨items, 0⟩

/-- The source that hands out the items of a list and knows how many are left. -/
def source : Source (Cursor ι) ι where
  next? cursor :=
    match cursor.upcoming with
    | [] => none
    | item :: upcoming => some (item, ⟨upcoming, cursor.pulled + 1⟩)
  sizeHint cursor := (cursor.upcoming.length, some cursor.upcoming.length)

/-- Pulls all items that are left, through a source over the same list. -/
def drain (source : Source (Cursor ι) κ) (cursor : Cursor ι) : List κ × Cursor ι :=
  source.takeUpTo cursor.upcoming.length cursor

end Cursor

end QuayTimeline
