import Provenance.Decimal
import Provenance.Text.Words

set_option autoImplicit false

namespace Provenance

inductive OutputFormat where
  | text
  | json
  deriving DecidableEq

structure Options where
  singleMethod : Option String := none
  /-- Seconds for one body. -/
  timeLimit : Nat := 40
  /-- More values of one operand than this are not kept apart. -/
  maxValues : Nat := 16
  output : OutputFormat := .text
  deriving DecidableEq

inductive OptionName where
  | singleMethod
  | timeLimit
  | maxValues
  | output
  deriving DecidableEq

inductive OptionError where
  | unknownArgument (argument : String)
  | missingValue (option : OptionName)
  | givenTwice (option : OptionName)
  | notANumber (option : OptionName) (value : String)
  | notAChoice (option : OptionName) (value : String)
  | needlessValue (flag : String)
  | openQuotation
  | helpWanted
  | versionWanted
  deriving DecidableEq

namespace OptionName

def all : List OptionName := [.singleMethod, .timeLimit, .maxValues, .output]

def text : OptionName → String
  | .singleMethod => "single_method"
  | .timeLimit => "body_analysis_timeout"
  | .maxValues => "max_values_per_entry"
  | .output => "output"

def ofText? (name : String) : Option OptionName := all.find? fun o => o.text == name

end OptionName

structure Settings where
  singleMethod : Option String := none
  timeLimit : Option Nat := none
  maxValues : Option Nat := none
  output : Option OutputFormat := none
  deriving DecidableEq

namespace Settings

def isGiven (s : Settings) : OptionName → Bool
  | .singleMethod => s.singleMethod.isSome
  | .timeLimit => s.timeLimit.isSome
  | .maxValues => s.maxValues.isSome
  | .output => s.output.isSome

/-- An unsigned number of 64 bits; a plus sign may stand before it. -/
def number? (value : String) : Option Nat :=
  let digits :=
    match value.toList with
    | '+' :: digits => digits
    | digits => digits
  (Decimal.readNat? digits).bind fun n => if n < UInt64.size then some n else none

def choice? : String → Option OutputFormat
  | "text" => some .text
  | "json" => some .json
  | _ => none

/-- Gives an option its value. No option may be given twice, and that is found before the value is
looked at. -/
def assign (s : Settings) (option : OptionName) (value : String) : Except OptionError Settings :=
  if s.isGiven option then .error (.givenTwice option)
  else match option with
    | .singleMethod => .ok { s with singleMethod := some value }
    | .timeLimit =>
      match number? value with
      | some n => .ok { s with timeLimit := some n }
      | none => .error (.notANumber option value)
    | .maxValues =>
      match number? value with
      | some n => .ok { s with maxValues := some n }
      | none => .error (.notANumber option value)
    | .output =>
      match choice? value with
      | some f => .ok { s with output := some f }
      | none => .error (.notAChoice option value)

end Settings

def Options.apply (o : Options) (s : Settings) : Options where
  singleMethod := s.singleMethod <|> o.singleMethod
  timeLimit := s.timeLimit.getD o.timeLimit
  maxValues := s.maxValues.getD o.maxValues
  output := s.output.getD o.output

inductive Argument where
  | separator
  | long (name : String) (value : Option String)
  | short (letter : Char)
  /-- A program or the value of an option. A single dash is such an argument. -/
  | plain

def Argument.ofText (argument : String) : Argument :=
  match argument.toList with
  | ['-', '-'] => .separator
  | '-' :: '-' :: rest =>
    .long (String.ofList (rest.takeWhile (· != '=')))
      (match rest.dropWhile (· != '=') with
        | [] => none
        | _ :: value => some (String.ofList value))
  | '-' :: letter :: _ => .short letter
  | _ => .plain

/-- Arguments read so far. The last option may still wait for its value, or the value for its
turn: an argument that stands alone is checked only when the next one has been accepted. -/
structure Scan where
  settings : Settings := {}
  waiting : Option (OptionName × Option String) := none
  programs : List String := []

namespace Scan

def settle (s : Scan) : Except OptionError Scan :=
  match s.waiting with
  | none => .ok s
  | some (option, none) => .error (.missingValue option)
  | some (option, some value) =>
    match s.settings.assign option value with
    | .ok settings => .ok { s with settings := settings, waiting := none }
    | .error e => .error e

def andThen (s : Scan) (next : Scan → Except OptionError Scan) : Except OptionError Scan :=
  match s.settle with
  | .ok s => next s
  | .error e => .error e

def long (s : Scan) (argument name : String) (value : Option String) : Except OptionError Scan :=
  match OptionName.ofText? name with
  | some option =>
    match value with
    | some value => s.andThen fun s =>
      match s.settings.assign option value with
      | .ok settings => .ok { s with settings := settings }
      | .error e => .error e
    | none => s.andThen fun s => .ok { s with waiting := some (option, none) }
  | none =>
    if name = "help" ∨ name = "version" then
      if value.isSome then .error (.needlessValue name)
      else s.andThen fun _ => .error (if name = "help" then .helpWanted else .versionWanted)
    else .error (.unknownArgument argument)

def short (s : Scan) (argument : String) (letter : Char) : Except OptionError Scan :=
  if letter = 'h' then s.andThen fun _ => .error .helpWanted
  else if letter = 'V' then s.andThen fun _ => .error .versionWanted
  else .error (.unknownArgument argument)

def plain (s : Scan) (argument : String) : Except OptionError Scan :=
  match s.waiting with
  | some (option, none) => .ok { s with waiting := some (option, some argument) }
  | _ => s.andThen fun s => .ok { s with programs := s.programs ++ [argument] }

def run (s : Scan) : List String → Except OptionError Scan
  | [] => s.settle
  | argument :: rest =>
    match Argument.ofText argument with
    | .separator => s.andThen fun s => .ok { s with programs := s.programs ++ rest }
    | .long name value =>
      match s.long argument name value with
      | .ok s => s.run rest
      | .error e => .error e
    | .short letter =>
      match s.short argument letter with
      | .ok s => s.run rest
      | .error e => .error e
    | .plain =>
      match s.plain argument with
      | .ok s => s.run rest
      | .error e => .error e

end Scan

namespace Options

/-- The options after an attempt to read arguments into them, and the programs that were named. -/
def parse (o : Options) (arguments : List String) : Options × Except OptionError (List String) :=
  match Scan.run {} arguments with
  | .ok s => (o.apply s.settings, .ok s.programs)
  | .error e => (o, .error e)

def parseLine (o : Options) (line : String) : Options × Except OptionError (List String) :=
  match Text.Words.split line with
  | some arguments => o.parse arguments
  | none => (o, .error .openQuotation)

end Options

end Provenance
