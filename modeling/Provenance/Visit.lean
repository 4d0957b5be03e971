import Provenance.Recognizer
import Provenance.Report

set_option autoImplicit false

namespace Provenance

structure Effect where
  writes : List (Operand × List SymbolicValue)
  flows : List Flow
  returns : List SymbolicValue

namespace Effect

def nothing : Effect := ⟨[], [], []⟩

def ofWrites (writes : List (Operand × List SymbolicValue)) : Effect := ⟨writes, [], []⟩

def write (target : Operand) (values : List SymbolicValue) : Effect := ofWrites [(target, values)]

def copied (env : Environment) (source : Operand) (otherwise : SymbolicValue) :
    List SymbolicValue :=
  (env.resolveOperand? source).getD [otherwise]

def ofReturn (env : Environment) (value : Operand) : Effect :=
  let values := copied env value (.returned value)
  ⟨[(.returnSlot, values)], [], values⟩

def flowsInto (env : Environment) (caller : Method) (call : CallSite) : List Flow :=
  call.arguments.filterMap fun a =>
    let tags := env.tagsOf a
    if tags.isEmpty then none else some ⟨caller.text, call.method.text, a.text, tags.toList⟩

/-- A modelled call gives its values to the receiver, if it changes it, and then to the result. -/
def ofModelled (call : CallSite) (result : Option Operand) (values : List SymbolicValue) : Effect :=
  let receiver := if call.knownName.updatesReceiver then call.receiver.toList else []
  ofWrites ((receiver ++ result.toList).map (·, values))

/-- A call that nobody models shows the flows into it. A constructor gives its receiver an object;
otherwise the result is a description of the call. -/
def ofUnmodelled [Enumeration] (env : Environment) (caller : Method) (call : CallSite)
    (result : Option Operand) : Effect where
  writes :=
    match call.receiver, call.method.isConstructor with
    | some base, true =>
      [(base, [.makeIn env (.object call.method.className call.arguments)])]
    | _, _ => result.toList.map (·, [call.describeIn env])
  flows := flowsInto env caller call
  returns := []

/-- A call that is wrong in itself leaves its result unknown. -/
def ofCall [Enumeration] (chain : Chain) (env : Environment) (caller : Method) (call : CallSite)
    (result : Option Operand) : Effect :=
  match chain.recognize call env with
  | .ok (some values) => ofModelled call result values
  | .ok none => ofUnmodelled env caller call result
  | .error _ => ofWrites (result.toList.map fun o => (o, [.unknownFor o]))

def ofInstruction [Enumeration] (chain : Chain) (knownName : Method → KnownName)
    (env : Environment) (caller : Method) : Instruction → Effect
  | .identity target _ => write target [.symbol target]
  | .assign target source => write target (copied env source (.symbol source))
  | .fieldRead target base field => write target [.makeIn env (.field base field)]
  | .binary target operator left right =>
    write target [.makeIn env (.binary left operator right)]
  | .create target className => write target [.makeIn env (.object className [])]
  | .invoke result method receiver arguments =>
    ofCall chain env caller ⟨method, knownName method, receiver, arguments⟩ result
  | .giveBack none => nothing
  | .giveBack (some value) => ofReturn env value

end Effect

structure Visit where
  environment : Environment
  returns : List SymbolicValue
  flows : List Flow
  names : KnownName.Cache

namespace Visit

def start (limit : Nat) (names : KnownName.Cache) : Visit := ⟨.new limit, [], [], names⟩

/-- Every write is recorded under the same condition. Nothing can be written to a literal. -/
def writeAll (env : Environment) (condition : Option Condition)
    (writes : List (Operand × List SymbolicValue)) : Environment :=
  (writes.filter fun w => !w.1.isLiteral).foldl (fun env w => env.update w.1 w.2 condition) env

def perform (v : Visit) (e : Effect) (condition : Option Condition) : Visit :=
  { v with
    environment := writeAll v.environment condition e.writes
    returns := e.returns.foldl SymbolicValue.addResult v.returns
    flows := v.flows ++ e.flows }

def namesAfter (v : Visit) : Instruction → KnownName.Cache
  | .invoke _ method _ _ => (v.names.lookup method).2
  | _ => v.names

def step [Enumeration] (chain : Chain) (caller : Method) (v : Visit) (s : Statement) : Visit :=
  let knownName := fun method => (v.names.lookup method).1
  let effect := Effect.ofInstruction chain knownName v.environment caller s.instruction
  { v with names := v.namesAfter s.instruction }.perform effect s.guard

def run [Enumeration] (chain : Chain) (caller : Method) (v : Visit) (statements : List Statement) :
    Visit :=
  statements.foldl (step chain caller) v

theorem run_append [Enumeration] (chain : Chain) (caller : Method) (v : Visit)
    (first second : List Statement) :
    v.run chain caller (first ++ second) = (v.run chain caller first).run chain caller second :=
  List.foldl_append

end Visit

end Provenance
