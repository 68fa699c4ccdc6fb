/-! Command lines with one operand and named options. Arguments are taken from left to right. A
value that stands apart from its option, like the operand, is accepted only once the argument
behind it shows that it is complete, so an argument that is refused outright hides its errors. -/

namespace CoolMachine.CommandLine

/-- Why a command line yields no settings. -/
inductive Stop where
  | help
  | version
  | missingOperand
  | unknownArgument
  | repeatedOption
  /-- A value attached to an option that takes none. -/
  | unexpectedValue
  /-- A value that is absent, or empty where it must not be. -/
  | missingValue
  | invalidValue
  deriving DecidableEq

inductive OptionSpec where
  | switch (long : String)
  | stop (long : String) (short : Char) (reason : Stop)
  /-- An option with a value, which `check` may refuse. -/
  | valued (long : String) (short : Option Char) (check : String → Option Stop)

namespace OptionSpec

def long : OptionSpec → String
  | switch long | stop long _ _ | valued long _ _ => long

def short? : OptionSpec → Option Char
  | switch _ => none
  | stop _ short _ => some short
  | valued _ short _ => short

end OptionSpec

/-- What every command understands. -/
def standardOptions : List OptionSpec := [.stop "help" 'h' .help, .stop "version" 'V' .version]

/-- Paths must not be empty. -/
def checkPath (value : String) : Option Stop := if value.isEmpty then some .missingValue else none

/-- An argument that may still be in want of a value. -/
inductive Pending where
  | operand (value : String)
  | valued (long : String) (check : String → Option Stop) (value : Option String)

/-- The settings accepted so far; options are named by their long form. -/
structure Settings where
  operand : Option String := none
  given : List (String × Option String) := []
  pending : Option Pending := none

namespace Settings

def has (s : Settings) (long : String) : Bool := s.given.any fun (name, _) => name == long

def value? (s : Settings) (long : String) : Option String := (s.given.lookup long).join

/-- Records an option, which may be given once. -/
def record (s : Settings) (long : String) (value : Option String) : Except Stop Settings :=
  if s.has long then .error .repeatedOption
  else .ok { s with given := (long, value) :: s.given }

/-- Records an option with its value; a repetition is found before a bad value. -/
def recordValue (s : Settings) (long : String) (check : String → Option Stop) (value : String) :
    Except Stop Settings := do
  let recorded ← s.record long (some value)
  match check value with
  | some stop => .error stop
  | none => return recorded

/-- Accepts the pending argument. -/
def settle (s : Settings) : Except Stop Settings :=
  let settled := { s with pending := none }
  match s.pending with
  | none => .ok s
  | some (.operand value) =>
    match checkPath value with
    | some stop => .error stop
    | none => .ok { settled with operand := some value }
  | some (.valued _ _ none) => .error .missingValue
  | some (.valued long check (some value)) => settled.recordValue long check value

/-- There is room for one operand. -/
def addOperand (s : Settings) (value : String) : Except Stop Settings :=
  match s.operand, s.pending with
  | some _, _ | _, some (.operand _) => .error .unknownArgument
  | none, _ => do
    let settled ← s.settle
    return { settled with pending := some (.operand value) }

/-- An argument that names no option is the value awaited, if there is one, and else an operand. -/
def addPlain (s : Settings) (argument : String) : Except Stop Settings :=
  match s.pending with
  | some (.valued long check none) =>
    .ok { s with pending := some (.valued long check (some argument)) }
  | _ => s.addOperand argument

/-- Takes an option together with the value attached to it. -/
def addOption (s : Settings) (option : OptionSpec) (attached : Option String) :
    Except Stop Settings :=
  match option, attached with
  | .valued long _ check, some value => do
    let settled ← s.settle
    settled.recordValue long check value
  | .valued long _ check, none => do
    let settled ← s.settle
    return { settled with pending := some (.valued long check none) }
  | _, some _ => .error .unexpectedValue
  | .switch long, none => do
    let settled ← s.settle
    settled.record long none
  | .stop _ _ reason, none => do
    let _ ← s.settle
    .error reason

def addLong (options : List OptionSpec) (s : Settings) (text : List Char) :
    Except Stop Settings :=
  let name := text.takeWhile (· != '=')
  match options.find? fun option => option.long.toList == name with
  | none => .error .unknownArgument
  | some option =>
    s.addOption option <|
      match text.dropWhile (· != '=') with
      | [] => none
      | _ :: value => some (String.ofList value)

/-- Behind the letter of an option with a value stands the value, with or without an equals sign;
behind any other letter nothing is looked at. -/
def addShort (options : List OptionSpec) (s : Settings) (letter : Char) (rest : List Char) :
    Except Stop Settings :=
  match options.find? fun option => option.short? == some letter with
  | none => .error .unknownArgument
  | some (.valued long short check) =>
    s.addOption (.valued long short check) <|
      match rest with
      | [] => none
      | '=' :: value => some (String.ofList value)
      | value => some (String.ofList value)
  | some option => s.addOption option none

/-- A lone dash and the empty text name no option. -/
def add (options : List OptionSpec) (s : Settings) (argument : String) : Except Stop Settings :=
  match argument.toList with
  | '-' :: '-' :: text => addLong options s text
  | '-' :: letter :: rest => addShort options s letter rest
  | _ => s.addPlain argument

/-- Two dashes alone make operands of all arguments behind them. -/
def addAll (options : List OptionSpec) (s : Settings) : List String → Except Stop Settings
  | [] => s.settle
  | "--" :: operands => do
    let s ← operands.foldlM addOperand s
    s.settle
  | argument :: rest => do
    let s ← add options s argument
    addAll options s rest

end Settings

/-- The operand and the settings that a command line gives. -/
def parse (options : List OptionSpec) (arguments : List String) :
    Except Stop (String × Settings) := do
  let settings ← Settings.addAll options {} arguments
  match settings.operand with
  | some operand => return (operand, settings)
  | none => .error .missingOperand

end CoolMachine.CommandLine
