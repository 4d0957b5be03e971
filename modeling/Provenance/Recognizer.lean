import Provenance.Environment
import Provenance.KnownName

set_option autoImplicit false

namespace Provenance

structure CallSite where
  method : Method
  knownName : KnownName
  receiver : Option Operand
  arguments : List Operand

inductive CallError where
  | malformedMethod (method : Method)
  | missingReceiver (method : Method)
  deriving DecidableEq

def CallError.message : CallError → String
  | .malformedMethod m => "malformed method descriptor " ++ m.text
  | .missingReceiver m => "call to instance method " ++ m.text ++ " has no receiver"

def Method.validate (m : Method) : Except CallError Unit :=
  if m.isMalformed then .error (.malformedMethod m) else .ok ()

namespace CallSite

def operands (call : CallSite) : List Operand := call.receiver.toList ++ call.arguments

def expression (call : CallSite) : Expression :=
  .call call.method call.receiver call.arguments

def describe [Enumeration] (call : CallSite) (s : Snapshot) : SymbolicValue :=
  .make call.expression s

def describeIn [Enumeration] (call : CallSite) (env : Environment) : SymbolicValue :=
  call.describe (env.capture call.operands)

end CallSite

/-- No values, or an empty list of them, mean that the call is not modelled. -/
abbrev Recognition := Except CallError (Option (List SymbolicValue))

structure Recognizer where
  name : String
  recognize : CallSite → Environment → Recognition

abbrev Chain := List Recognizer

namespace Chain

/-- The first answer that has values. A recognizer that fails ends the search. -/
def consult (call : CallSite) (env : Environment) : Chain → Recognition
  | [] => .ok none
  | r :: rest =>
    match r.recognize call env with
    | .error e => .error e
    | .ok (some (v :: values)) => .ok (some (SymbolicValue.distinct (v :: values)))
    | .ok _ => Chain.consult call env rest

/-- The distinct values of a call. A malformed method is refused before anyone is asked. -/
def recognize (chain : Chain) (call : CallSite) (env : Environment) : Recognition :=
  match call.method.validate with
  | .error e => .error e
  | .ok () => consult call env chain

def description (chain : Chain) : String :=
  "RecognitionChain[" ++ ", ".intercalate (chain.map Recognizer.name) ++ "]"

end Chain

end Provenance

namespace Provenance.Recognizer

def propagate (env : Environment) (source : Operand) (values : List SymbolicValue) :
    List SymbolicValue :=
  values.map (·.addTags (env.tagsOf source))

def passOn (env : Environment) (source : Operand) : List SymbolicValue :=
  propagate env source (env.resolveOrUnknown source)

def passReceiverOn (call : CallSite) (env : Environment) : Recognition :=
  match call.receiver with
  | none => .error (.missingReceiver call.method)
  | some base => .ok (some (passOn env base))

/-- The getters of a text message. Their result is opaque and has the tag of the part that it
shows. -/
def messageSource [Enumeration] : Recognizer where
  name := "sms source"
  recognize call env :=
    match call.knownName.sourceTag? with
    | none => .ok none
    | some tag => .ok (some [(call.describeIn env).addTag tag])

/-- What a string or a builder holds after its constructor ran with the given arguments. An integer
given to a builder is its capacity. -/
def constructed [Enumeration] (call : CallSite) (env : Environment) : List SymbolicValue :=
  match call.arguments with
  | [] => [.constant (.str "")]
  | [argument] =>
    match argument.literal? with
    | some (.str s) => [.constant (.str s)]
    | literal =>
      if argument.staticType = "int" ∧ call.method.className ≠ KnownName.stringClass then
        [.constant (.str "")]
      else if literal.isSome then [call.describeIn env]
      else passOn env argument
  | _ => [call.describeIn env]

def stringConstructor [Enumeration] : Recognizer where
  name := "string constructor"
  recognize call env :=
    if call.knownName = .construct then
      match call.receiver with
      | none => .error (.missingReceiver call.method)
      | some _ => .ok (some (constructed call env))
    else .ok none

/-- One candidate of the receiver: its folded value if there is one, else a description of the call
with the receiver holding just this candidate. -/
def foldOrDescribe [Enumeration] (call : CallSite) (arguments : Snapshot) (base : Operand)
    (fold : Constant → Option Constant) (candidate : SymbolicValue) : SymbolicValue :=
  match candidate.constant?.bind fold with
  | some c => .constant c
  | none => call.describe (arguments.insert base [candidate])

def appended [Enumeration] (call : CallSite) (env : Environment) (base argument : Operand) :
    List SymbolicValue :=
  propagate env argument <| propagate env base <|
    (env.resolveOrUnknown base).map
      (foldOrDescribe call (env.capture [argument]) base
        fun c => argument.literal?.map c.concat)

def append [Enumeration] : Recognizer where
  name := "append"
  recognize call env :=
    if call.knownName = .append ∨ call.knownName = .concat then
      match call.receiver, call.arguments with
      | none, _ => .error (.missingReceiver call.method)
      | some base, [argument] => .ok (some (appended call env base argument))
      | some _, _ => .ok (some [call.describeIn env])
    else .ok none

def positions? (arguments : List Operand) : Option (List Int) :=
  arguments.mapM fun a => (a.literal?.bind Constant.asInt?).map Int64.toInt

def cut? (positions : Option (List Int)) (c : Constant) : Option Constant :=
  match positions with
  | some [start] => c.substring? start none
  | some [start, stop] => c.substring? start (some stop)
  | _ => none

/-- A part of a constant is a constant without tags; else the call is described. -/
def substring [Enumeration] : Recognizer where
  name := "substring"
  recognize call env :=
    if call.knownName = .substring then
      match call.receiver with
      | none => .error (.missingReceiver call.method)
      | some base =>
        .ok (some ((env.resolveOrUnknown base).map
          (foldOrDescribe call (env.capture call.arguments) base
            (cut? (positions? call.arguments)))))
    else .ok none

def valueOf [Enumeration] : Recognizer where
  name := "valueOf"
  recognize call env :=
    if call.knownName = .valueOf then
      match call.arguments with
      | [argument] =>
        match argument.literal? with
        | some c => .ok (some [.constant c.valueOf])
        | none => .ok (some (passOn env argument))
      | _ => .ok (some [call.describeIn env])
    else .ok none

/-- A date in text form is approximated by what its formatter holds, tagged with everything that
was formatted. -/
def dateFormat : Recognizer where
  name := "date format"
  recognize call env :=
    if call.knownName = .format then
      match call.receiver with
      | some base =>
        if isDateFormatType base.staticType then
          .ok (some (call.arguments.foldl (fun values a => propagate env a values)
            (env.resolveOrUnknown base)))
        else .ok none
      | none => .ok none
    else .ok none

/-- Letter case is not modelled. -/
def toLowerCase : Recognizer where
  name := "toLowerCase"
  recognize call env :=
    if call.knownName = .toLowerCase then passReceiverOn call env else .ok none

def toText : Recognizer where
  name := "toString"
  recognize call env :=
    if call.knownName = .toText then passReceiverOn call env else .ok none

def standard [Enumeration] : Chain :=
  [messageSource, stringConstructor, append, substring, valueOf, dateFormat, toLowerCase, toText]

end Provenance.Recognizer
