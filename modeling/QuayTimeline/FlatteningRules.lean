import QuayTimeline.Record.Decode
import QuayTimeline.Validity

/-! # Rules of flattening

Which quays are flattened: those imported from certain systems. Which of their versions
count: those with a priority up to a greatest one; versions above it are drafts. -/

namespace QuayTimeline

/-- What is flattened, and what is a draft. -/
structure FlatteningRules where
  /-- The greatest priority of a published version. -/
  maxPriority : Priority
  /-- The systems whose quays are flattened. -/
  sourceTypes : List String
deriving DecidableEq

namespace FlatteningRules

/-- Drafts start at priority 30; two generations of one register are flattened. -/
def default : FlatteningRules :=
  ⟨⟨29, by decide, by decide⟩, ["HSL/JORE-3", "HSL/JORE-4"]⟩

instance : Inhabited FlatteningRules := ⟨default⟩

/-- A record from a system whose quays are flattened. A record from nowhere is none. -/
def acceptsSource (rules : FlatteningRules) (sourceType? : Option String) : Bool :=
  sourceType?.any (rules.sourceTypes.contains ·)

/-- A priority above the greatest one of published versions. -/
def isDraft (rules : FlatteningRules) (priority : Priority) : Bool :=
  rules.maxPriority < priority

def fields : List String := ["max_priority", "source_types"]

def decodePriority : Decoder Priority := fun t => do
  match Priority.ofInt? (← Decoder.integer t) with
  | some p => .ok p
  | none => .error .unfit

/-- Reads one member into the rules; other members are skipped. -/
def readMember (rules : FlatteningRules) (key : String) (t : Json.Tree) :
    Except RecordError FlatteningRules :=
  match key with
  | "max_priority" => return { rules with maxPriority := ← decodePriority t }
  | "source_types" => return { rules with sourceTypes := ← Decoder.list Decoder.string t }
  | _ => Decoder.skip rules t

/-- Reads rules; what is not given stays at its default. -/
def decode : Decoder FlatteningRules :=
  Decoder.objectOrArray fields readMember default

def read (cs : List Char) : Except RecordError FlatteningRules :=
  Decoder.read decode cs

end FlatteningRules

end QuayTimeline
