import Provenance.Options
import Provenance.Visit

set_option autoImplicit false

namespace Provenance

/-- The passing of time: how many seconds a body has taken when the statement with an index has its
turn. -/
class Clock where
  seconds : Body → Nat → Nat

/-- By default no second passes, so that every limit but zero suffices. -/
instance Clock.still : Clock := ⟨fun _ _ => 0⟩

def ReportedValue.ofValue (v : SymbolicValue) : ReportedValue := ⟨v.text, v.tags.toList⟩

structure Analyzer where
  options : Options
  chain : Chain
  names : KnownName.Cache

namespace Analyzer

def new [Enumeration] (options : Options) : Analyzer := ⟨options, Recognizer.standard, .empty⟩

/-- Statements in turn, the first of them with its index in the body, until the time is up. The
answer comes with whether it was. -/
def visitFrom [Enumeration] [Clock] (a : Analyzer) (body : Body) (index : Nat) (v : Visit) :
    List Statement → Visit × Bool
  | [] => (v, false)
  | s :: rest =>
    if a.options.timeLimit ≤ Clock.seconds body index then (v, true)
    else a.visitFrom body (index + 1) (v.step a.chain body.method s) rest

def visit [Enumeration] [Clock] (a : Analyzer) (body : Body) : Visit × Bool :=
  a.visitFrom body 0 (.start a.options.maxValues a.names) body.statements

def analyzeBody [Enumeration] [Clock] (a : Analyzer) (body : Body) : Summary × Analyzer :=
  let (v, isIncomplete) := a.visit body
  ({ method := body.method.text
     returnValues := v.returns.map ReportedValue.ofValue
     flows := v.flows
     isIncomplete },
   { a with names := v.names })

/-- A selection names a method by its name, by class and name, or by its whole text. -/
def selects (selection : String) (m : Method) : Bool :=
  selection == m.name || selection == m.className ++ "." ++ m.name || selection == m.text

def isSelected (a : Analyzer) (m : Method) : Bool :=
  match a.options.singleMethod with
  | some selection => selects selection m
  | none => true

def analyzeBodies [Enumeration] [Clock] (a : Analyzer) : List Body → List Summary × Analyzer
  | [] => ([], a)
  | body :: rest =>
    if a.isSelected body.method then
      let (summary, a) := a.analyzeBody body
      let (summaries, a) := a.analyzeBodies rest
      (summary :: summaries, a)
    else a.analyzeBodies rest

def analyze [Enumeration] [Clock] (a : Analyzer) (p : Program) : Report × Analyzer :=
  let (summaries, a) := a.analyzeBodies p.methods
  (⟨summaries⟩, a)

def analyzeAll [Enumeration] [Clock] (a : Analyzer) : List Program → Report × Analyzer
  | [] => (.empty, a)
  | p :: rest =>
    let (report, a) := a.analyze p
    let (reports, a) := a.analyzeAll rest
    (report.append reports, a)

end Analyzer

end Provenance
