import QuayTimeline.Command.Error
import QuayTimeline.Record.Encode

/-! # The command that flattens

Each stop place of the input is flattened and written on a line of its own. The first
one at fault ends the command; what was written before it stays written, and it is for
the caller to keep or discard that. Nothing here keeps the command from writing. -/

namespace QuayTimeline.Flatten

/-- Writes items in order and counts them, from a number of those written before. -/
def writeItems (rules : FlatteningRules) (zone : Zone) (count : Nat) :
    List (Except LineError StopPlace) → Written Nat
  | [] => ⟨[], .ok count⟩
  | item :: items =>
    match flattenItem rules zone item with
    | .error cause => ⟨[], .error (.unflattened (count + 1) cause)⟩
    | .ok place =>
      let rest := writeItems rules zone (count + 1) items
      ⟨place.text ++ '\n' :: rest.text, rest.result⟩

/-- Writes the stop places of an input, flattened in the zone that is found for a name. -/
def write (zoneNamed? : String → Option Zone) (rules : FlatteningRules) (zoneName : String)
    (items : List (Except LineError StopPlace)) : Written Nat :=
  match zoneNamed? zoneName with
  | none => ⟨[], .error (.unknownZone zoneName)⟩
  | some zone => writeItems rules zone 0 items

end QuayTimeline.Flatten
