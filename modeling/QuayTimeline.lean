import QuayTimeline.Main
import QuayTimeline.Lookup
import QuayTimeline.Proofs.Outcome
import QuayTimeline.Proofs.Members
import QuayTimeline.Proofs.Text.Digits
import QuayTimeline.Proofs.Text.Utf8
import QuayTimeline.Proofs.Calendar.Civil
import QuayTimeline.Proofs.Calendar.DayText
import QuayTimeline.Proofs.Calendar.InstantText
import QuayTimeline.Proofs.Calendar.Zone
import QuayTimeline.Proofs.Timeline.Cuts
import QuayTimeline.Proofs.Timeline.Splice
import QuayTimeline.Proofs.Timeline.Resolution
import QuayTimeline.Proofs.Timeline.Check
import QuayTimeline.Proofs.Timeline.Flatten
import QuayTimeline.Proofs.Timeline.Batches
import QuayTimeline.Proofs.Timeline.Owners
import QuayTimeline.Proofs.Timeline.Unbroken
import QuayTimeline.Proofs.Timeline.FirstConflict
import QuayTimeline.Proofs.Timeline.Unchanged
import QuayTimeline.Proofs.Timeline.Overwrite
import QuayTimeline.Proofs.Timeline.Length
import QuayTimeline.Proofs.Json.Quoted
import QuayTimeline.Proofs.Json.Number
import QuayTimeline.Proofs.Json.Separated
import QuayTimeline.Proofs.Json.ReadBack
import QuayTimeline.Proofs.Json.OneLine
import QuayTimeline.Proofs.Record.Identifier
import QuayTimeline.Proofs.Record.KeyValues
import QuayTimeline.Proofs.Record.VersionKeys
import QuayTimeline.Proofs.Record.Checks
import QuayTimeline.Proofs.Record.Fields
import QuayTimeline.Proofs.Record.ReadBack
import QuayTimeline.Proofs.Record.Text
import QuayTimeline.Proofs.Record.Kept
import QuayTimeline.Proofs.Record.NormalForm
import QuayTimeline.Proofs.Record.Attributes
import QuayTimeline.Proofs.Flattening.Copies
import QuayTimeline.Proofs.Flattening.Groups
import QuayTimeline.Proofs.Flattening.Fragments
import QuayTimeline.Proofs.Flattening.ByDay
import QuayTimeline.Proofs.Flattening.Instants
import QuayTimeline.Proofs.Flattening.FixedOffset
import QuayTimeline.Proofs.Flattening.Repeat
import QuayTimeline.Proofs.Flattening.Positions
import QuayTimeline.Proofs.Flattening.Reorder
import QuayTimeline.Proofs.Flattening.ByCode
import QuayTimeline.Proofs.Flattening.Faults
import QuayTimeline.Proofs.Flattening.Carried
import QuayTimeline.Proofs.Flattening.Partition
import QuayTimeline.Proofs.Flattening.Lookup
import QuayTimeline.Proofs.Source
import QuayTimeline.Proofs.StopPlaceLines
import QuayTimeline.Proofs.SeparateLines
import QuayTimeline.Proofs.Command.Flatten
import QuayTimeline.Proofs.Command.Inspect
import QuayTimeline.Proofs.Command.LineByLine
import QuayTimeline.Proofs.CommandLine.FilePath
import QuayTimeline.Proofs.CommandLine.FileTree
import QuayTimeline.Proofs.CommandLine.World
import QuayTimeline.Proofs.CommandLine.Output
import QuayTimeline.Proofs.CommandLine.Printed
