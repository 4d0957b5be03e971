import Provenance.Analyzer

set_option autoImplicit false

namespace Provenance

structure Directory where
  files : List (String × String)

namespace Directory

def parts : List Char → List (List Char)
  | [] => [[]]
  | c :: rest =>
    if c = '/' then [] :: parts rest
    else
      match parts rest with
      | [] => [[c]]
      | part :: more => (c :: part) :: more

def staysHere (part : List Char) : Bool := part == [] || part == ['.']

/-- The steps from the directory to a file. A path from the root leads elsewhere, and one that ends
without a name leads to a directory. -/
def steps? (path : String) : Option (List String) :=
  let parts := parts path.toList
  if path.toList.head? = some '/' || parts.getLast?.all staysHere then none
  else some ((parts.filter (!staysHere ·)).map String.ofList)

def read? (d : Directory) (path : String) : Option String :=
  (steps? path).bind fun steps =>
    (d.files.find? fun file => steps? file.1 == some steps).map (·.2)

end Directory

structure Outcome where
  exitCode : UInt8
  stdout : String := ""
  stderr : String := ""
  deriving DecidableEq

namespace CommandLine

def version : String := "symtaint v0.1.0\n"

def help : String :=
  "Usage: [OPTIONS] [programs]...\n\n" ++
  "Arguments:\n" ++
  "  [programs]...  Programs to analyze, as serialized by the bytecode loader.\n\n" ++
  "Options:\n" ++
  "      --single_method <single_method>\n" ++
  "          Focus analysis on the named method.\n" ++
  "      --body_analysis_timeout <body_analysis_timeout>\n" ++
  "          The maximum number of seconds that will be spent analyzing a method body.\n" ++
  "      --max_values_per_entry <max_values_per_entry>\n" ++
  "          The maximum number of values a variable may hold before they are merged into " ++
  "an unknown value.\n" ++
  "      --output <output>\n" ++
  "          Report format. [possible values: text, json]\n" ++
  "  -h, --help\n" ++
  "          Print help\n" ++
  "  -V, --version\n" ++
  "          Print version\n"

def complaint : OptionError → String
  | .unknownArgument argument => "unexpected argument " ++ argument
  | .missingValue option => "a value is required for --" ++ option.text
  | .givenTwice option => "--" ++ option.text ++ " cannot be used multiple times"
  | .notANumber option value => "invalid value " ++ value ++ " for --" ++ option.text
  | .notAChoice option value => "invalid value " ++ value ++ " for --" ++ option.text
  | .needlessValue flag => "unexpected value for --" ++ flag
  | .openQuotation => "mismatched quotes"
  | .helpWanted => "help"
  | .versionWanted => "version"

/-- Help and version are what was asked for; any other error is a failure. -/
def refuse : OptionError → Outcome
  | .helpWanted => ⟨0, help, ""⟩
  | .versionWanted => ⟨0, version, ""⟩
  | e => ⟨2, "", "error: " ++ complaint e ++ "\n"⟩

/-- The settings of a run and its programs. What the arguments say counts more than the flags, and
the programs of the flags come first. -/
def configure (flags : Option String) (arguments : List String) :
    Except OptionError (Options × List String) :=
  let first : Options × Except OptionError (List String) :=
    match flags with
    | none => ({}, .ok [])
    | some line => ({} : Options).parseLine line
  match first with
  | (_, .error e) => .error e
  | (options, .ok programs) =>
    match options.parse arguments with
    | (_, .error e) => .error e
    | (options, .ok more) => .ok (options, programs ++ more)

def lines (texts : List String) : String := String.join (texts.map (· ++ "\n"))

def print (format : OutputFormat) (report : Report) : Outcome :=
  match format with
  | .text =>
    { exitCode := 0
      stdout := lines (report.flows.map Flow.text)
      stderr := lines ((report.summaries.filter Summary.isIncomplete).map fun s =>
        "analysis of " ++ s.method ++ " is incomplete") }
  | .json => { exitCode := 0, stdout := (toJson report).pretty ++ "\n" }

/-- Loads and analyzes the named programs in turn, and adds to a report what they give. The first
one that is missing or malformed ends it all, and its name is the answer. -/
def analyzeFiles [Enumeration] [Clock] (files : String → Option String) (a : Analyzer)
    (report : Report) : List String → Except String Report
  | [] => .ok report
  | path :: rest =>
    match (files path).bind Program.load? with
    | none => .error path
    | some p =>
      let (found, a) := a.analyze p
      analyzeFiles files a (report.append found) rest

def run [Enumeration] [Clock] (files : String → Option String) (flags : Option String)
    (arguments : List String) : Outcome :=
  match configure flags arguments with
  | .error e => refuse e
  | .ok (_, []) => ⟨1, "", "Error: no program to analyze\n"⟩
  | .ok (options, paths) =>
    match analyzeFiles files (.new options) .empty paths with
    | .error path => ⟨1, "", "Error: could not load program " ++ path ++ "\n"⟩
    | .ok report => print options.output report

end CommandLine

end Provenance
