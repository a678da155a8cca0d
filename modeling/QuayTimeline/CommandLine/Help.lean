import QuayTimeline.Text.Digits

/-! # Help

What the program says about itself: its commands and options, and a sentence on each. The
sentences stand in a column of their own and are wrapped to the width of the screen. Where the
names take much of a narrow screen, each sentence stands below its name instead. -/

namespace QuayTimeline.CommandLine

/-- A name with the sentence that explains it. -/
structure HelpEntry where
  label : String
  sentence : String

/-- Names of one kind. -/
structure HelpSection where
  title : String
  entries : List HelpEntry

/-- Lines of words, of which the first one is begun. A word that does not fit the width starts
a new line, even if it is too long for that as well. -/
def fillLines (width : Nat) (line : String) : List String → List String
  | [] => [line]
  | word :: words =>
    if line.length + 1 + word.length ≤ width then fillLines width (line ++ " " ++ word) words
    else line :: fillLines width word words

def wrapped (width : Nat) (text : String) : List String :=
  match text.splitOn " " with
  | [] => []
  | word :: words => fillLines width word words

def spaces (n : Nat) : String :=
  String.ofList (List.replicate n ' ')

namespace HelpSection

def nameWidth (part : HelpSection) : Nat :=
  (part.entries.map (·.label.length)).foldl max 0

/-- Whether the sentences stand below the names: some sentence does not fit beside them, and
the names with the space around them take more than two fifths of the screen. -/
def isStacked (part : HelpSection) (width : Nat) : Bool :=
  let taken := part.nameWidth + 12
  taken ≤ width && 2 * width < 5 * taken &&
    part.entries.any fun e => width - taken < e.sentence.length

def entryText (part : HelpSection) (width : Nat) (e : HelpEntry) : String :=
  if part.isStacked width then
    let lines := wrapped (width - 10) e.sentence
    "  " ++ e.label ++ String.join (lines.map fun line => "\n" ++ spaces 10 ++ line) ++ "\n"
  else
    let column := part.nameWidth + 4
    let lines := wrapped (width - column) e.sentence
    "  " ++ e.label ++ spaces (column - 2 - e.label.length) ++
      String.intercalate ("\n" ++ spaces column) lines ++ "\n"

def text (part : HelpSection) (width : Nat) : String :=
  part.title ++ ":\n" ++ String.join (part.entries.map (part.entryText width))

end HelpSection

def commandHelp : HelpSection where
  title := "Commands"
  entries :=
    [⟨"flatten", "Write stop places with their quay versions flattened"⟩,
     ⟨"inspect", "Print the flattened timeline of every public code"⟩,
     ⟨"help", "Print this message or the help of the given subcommand(s)"⟩]

def optionHelp : HelpSection where
  title := "Options"
  entries :=
    [⟨"-v, --verbose", "Enable verbose output"⟩,
     ⟨"-c, --config <CONFIG>", "Path to config file"⟩,
     ⟨"-h, --help", "Print help"⟩,
     ⟨"-V, --version", "Print version"⟩]

/-- What the program says about itself on a screen of a width. -/
def helpText (width : Nat) : String :=
  String.intercalate "\n" (wrapped width "Quay timeline flattening CLI") ++ "\n\n" ++
  "Usage: qf [OPTIONS] [COMMAND]\n\n" ++
  commandHelp.text width ++ "\n" ++ optionHelp.text width

def versionText : String := "qf 0.1.0\n"

/-- The width of the screen, which the environment may tell. -/
def screenWidth (environment : List (String × String)) : Nat :=
  let told? := match (environment.lookup "COLUMNS").map String.toList with
    | some ('-' :: _) => none
    | some cs => Text.readInt? cs
    | none => none
  (told?.map Int.toNat).getD 100

end QuayTimeline.CommandLine
