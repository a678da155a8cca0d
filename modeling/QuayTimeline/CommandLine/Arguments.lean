/-! # Command line arguments

The program is called with options, a command, and options of the command. The general
options may stand on either side of the command; where both sides give one, the inner one
counts. On one side an option may be given once. Arguments are read from left to right, so
the first request for help, or fault, decides. -/

namespace QuayTimeline.CommandLine

/-- The options of the program and its commands. -/
inductive OptionName where
  | verbose
  | config
  | input
  | output
  | help
  | version
deriving DecidableEq, Repr

namespace OptionName

/-- The name of an option after two hyphens. -/
def long : OptionName → String
  | verbose => "verbose"
  | config => "config"
  | input => "input"
  | output => "output"
  | help => "help"
  | version => "version"

/-- The letter of an option after one hyphen. -/
def short : OptionName → Char
  | verbose => 'v'
  | config => 'c'
  | input => 'i'
  | output => 'o'
  | help => 'h'
  | version => 'V'

def takesValue : OptionName → Bool
  | config => true
  | input => true
  | output => true
  | _ => false

end OptionName

/-- What can be asked of the program. -/
inductive CommandName where
  | flatten
  | inspect
deriving DecidableEq, Repr

def CommandName.word : CommandName → String
  | flatten => "flatten"
  | inspect => "inspect"

def commandOf? (word : String) : Option CommandName :=
  [CommandName.flatten, .inspect].find? (·.word = word)

/-- The options that stand before the command. -/
def generalOptions : List OptionName := [.verbose, .config, .help, .version]

/-- The options that stand after a command. -/
def CommandName.options : CommandName → List OptionName
  | flatten => [.verbose, .config, .input, .output, .help]
  | inspect => [.verbose, .config, .input, .help]

/-- The options given on one side of the command, with their values. -/
abbrev Given := List (OptionName × Option String)

def valueOf (given : Given) (name : OptionName) : Option String :=
  (given.lookup name).join

/-- Why reading arguments stops before their end. -/
inductive Stop where
  | misuse
  | help
  | version
deriving DecidableEq, Repr

def give (given : Given) (name : OptionName) (value : Option String) : Except Stop Given :=
  if name = .help then .error .help
  else if name = .version then .error .version
  else if (given.lookup name).isSome then .error .misuse
  else .ok (given ++ [(name, value)])

/-- Adds an option with a value, which must not be empty. -/
def giveValue (given : Given) (name : OptionName) (value : String) : Except Stop Given :=
  if value = "" then .error .misuse else give given name (some value)

/-- Whether an argument can be the value of the option before it. A lone hyphen can. -/
def isValue (arg : String) : Bool :=
  arg = "-" || !(['-'].isPrefixOf arg.toList)

/-- Adds an option whose value is the next argument; returns the arguments after it. -/
def giveNext (given : Given) (name : OptionName) :
    List String → Except Stop (Given × List String)
  | [] => .error .misuse
  | arg :: args => do
    if isValue arg then return (← giveValue given name arg, args) else .error .misuse

/-- Reads the letters after a hyphen. An option with a value takes the rest of them, less an
equals sign, or else the next argument. -/
def readLetters (options : List OptionName) (args : List String) :
    Given → List Char → Except Stop (Given × List String)
  | given, [] => .ok (given, args)
  | given, letter :: letters => do
    match options.find? (·.short = letter) with
    | none => .error .misuse
    | some name =>
      if name.takesValue then
        match letters with
        | [] => giveNext given name args
        | '=' :: value => return (← giveValue given name (String.ofList value), args)
        | value => return (← giveValue given name (String.ofList value), args)
      else readLetters options args (← give given name none) letters

/-- Reads what stands after two hyphens. A value follows an equals sign, or is the next
argument; an option without a value must have none. -/
def readLong (options : List OptionName) (args : List String) (given : Given)
    (text : List Char) : Except Stop (Given × List String) := do
  let word := String.ofList (text.takeWhile (· ≠ '='))
  match options.find? (·.long = word), text.dropWhile (· ≠ '=') with
  | none, _ => .error .misuse
  | some name, [] =>
    if name.takesValue then giveNext given name args else return (← give given name none, args)
  | some name, _ :: value =>
    if name.takesValue then return (← giveValue given name (String.ofList value), args)
    else .error .misuse

/-- Reads options up to the first argument that is none; returns that argument and those
after it. Nothing may follow two hyphens alone. The number bounds the arguments. -/
def readOptions (options : List OptionName) :
    Nat → Given → List String → Except Stop (Given × List String)
  | 0, given, args => .ok (given, args)
  | _, given, [] => .ok (given, [])
  | fuel + 1, given, arg :: args =>
    match arg.toList with
    | ['-', '-'] => if args = [] then .ok (given, []) else .error .misuse
    | '-' :: '-' :: text => do
      let (given, args) ← readLong options args given text
      readOptions options fuel given args
    | '-' :: letter :: letters => do
      let (given, args) ← readLetters options args given (letter :: letters)
      readOptions options fuel given args
    | _ => .ok (given, arg :: args)

/-- What the arguments ask for: a command with its input and output, or none, under the
settings of a file. -/
structure Request where
  settingsFile : Option String
  command : Option (CommandName × Option String × Option String)
deriving DecidableEq, Repr

/-- Reads the words after the word `help`: at most the word of a command. -/
def readHelp : List String → Stop
  | [] => .help
  | [word] => if (commandOf? word).isSome ∨ word = "help" then .help else .misuse
  | _ => .misuse

def read (args : List String) : Except Stop Request := do
  let (outer, args) ← readOptions generalOptions args.length [] args
  match args with
  | [] => return ⟨valueOf outer .config, none⟩
  | word :: args =>
    match commandOf? word with
    | some name =>
      let (inner, rest) ← readOptions name.options args.length [] args
      if rest ≠ [] then .error .misuse
      else
        return ⟨valueOf inner .config <|> valueOf outer .config,
          some (name, valueOf inner .input, valueOf inner .output)⟩
    | none => .error (if word = "help" then readHelp args else .misuse)

end QuayTimeline.CommandLine
