import Provenance.Constant

set_option autoImplicit false

namespace Provenance

structure Method where
  className : String
  name : String
  parameterTypes : List String
  returnType : String
  deriving DecidableEq, Ord

namespace Method

def text (m : Method) : String :=
  "<" ++ m.className ++ ": " ++ m.returnType ++ " " ++ m.name ++
    "(" ++ ",".intercalate m.parameterTypes ++ ")>"

def isConstructor (m : Method) : Bool := m.name == "<init>"

/-- A method without a class or without a name denotes nothing. -/
def isMalformed (m : Method) : Bool := m.className.isEmpty || m.name.isEmpty

def simpleName (className : String) : String :=
  String.ofList (className.toList.reverse.takeWhile (· != '.')).reverse

end Method

instance : Wire Method where
  toJson m := .record [("class", toJson m.className), ("name", toJson m.name),
    ("parameter_types", toJson m.parameterTypes), ("return_type", toJson m.returnType)]
  ofJson? j :=
    match j.slots? ["class", "name", "parameter_types", "return_type"] with
    | some [className, name, parameterTypes, returnType] => do
      return ⟨← className.required, ← name.required, ← parameterTypes.orElse [],
        ← returnType.orElse "void"⟩
    | _ => none

inductive Operator where
  | add | and | cmp | div | eq | ge | gt | le | lt | mul | ne | or | rem | shl | shr | sub | ushr
  | xor
  deriving DecidableEq, Ord

namespace Operator

def all : List Operator :=
  [.add, .and, .cmp, .div, .eq, .ge, .gt, .le, .lt, .mul, .ne, .or, .rem, .shl, .shr, .sub,
   .ushr, .xor]

def symbol : Operator → String
  | .add => "+"
  | .and => "&"
  | .cmp => "cmp"
  | .div => "/"
  | .eq => "=="
  | .ge => ">="
  | .gt => ">"
  | .le => "<="
  | .lt => "<"
  | .mul => "*"
  | .ne => "!="
  | .or => "|"
  | .rem => "%"
  | .shl => "<<"
  | .shr => ">>"
  | .sub => "-"
  | .ushr => ">>>"
  | .xor => "^"

def name : Operator → String
  | .add => "Add"
  | .and => "And"
  | .cmp => "Cmp"
  | .div => "Div"
  | .eq => "Eq"
  | .ge => "Ge"
  | .gt => "Gt"
  | .le => "Le"
  | .lt => "Lt"
  | .mul => "Mul"
  | .ne => "Ne"
  | .or => "Or"
  | .rem => "Rem"
  | .shl => "Shl"
  | .shr => "Shr"
  | .sub => "Sub"
  | .ushr => "Ushr"
  | .xor => "Xor"

end Operator

instance : Wire Operator where
  toJson o := .str o.name
  ofJson? := Json.caseNamed? Operator.all Operator.name

inductive Operand where
  | named (name : String) (type : String)
  | literal (constant : Constant)
  | returnSlot
  deriving DecidableEq, Ord

namespace Operand

/-- The printed form. Different operands may print alike. -/
def text : Operand → String
  | .named name _ => name
  | .literal c => c.text
  | .returnSlot => "@return"

def staticType : Operand → String
  | .named _ type => type
  | .literal c => c.staticType
  | .returnSlot => ""

def literal? : Operand → Option Constant
  | .literal c => some c
  | _ => none

def isLiteral (o : Operand) : Bool := o.literal?.isSome

end Operand

instance : Wire Operand where
  toJson
    | .named name type =>
      .tagged "Local" (.record [("name", toJson name), ("var_type", toJson type)])
    | .literal c => .tagged "Literal" (toJson c)
    | .returnSlot => .str "ReturnSlot"
  ofJson? j :=
    match j.case? with
    | some ("Local", some contents) =>
      match contents.slots? ["name", "var_type"] with
      | some [name, type] => do return .named (← name.required) (← type.required)
      | _ => none
    | some ("Literal", some c) => (ofJson? c).map .literal
    | some ("ReturnSlot", contents) => if Json.isBare contents then some .returnSlot else none
    | _ => none

structure Condition where
  text : String
  deriving DecidableEq, Ord

instance : Wire Condition where
  toJson c := toJson c.text
  ofJson? j := (ofJson? j).map Condition.mk

inductive Instruction where
  | identity (target : Operand) (parameter : UInt64)
  | assign (target source : Operand)
  | fieldRead (target base : Operand) (field : String)
  | binary (target : Operand) (operator : Operator) (left right : Operand)
  /-- The target is a new object whose constructor has not run yet. -/
  | create (target : Operand) (className : String)
  | invoke (result : Option Operand) (method : Method) (receiver : Option Operand)
      (arguments : List Operand)
  | giveBack (value : Option Operand)
  deriving DecidableEq

structure Statement where
  guard : Option Condition
  instruction : Instruction
  deriving DecidableEq

def Statement.ofInstruction (i : Instruction) : Statement := ⟨none, i⟩

structure Body where
  method : Method
  statements : List Statement
  deriving DecidableEq

structure Program where
  methods : List Body
  deriving DecidableEq

instance : Wire Instruction where
  toJson
    | .identity target parameter => .tagged "Identity"
        (.record [("target", toJson target), ("parameter", toJson parameter)])
    | .assign target source => .tagged "Assign"
        (.record [("target", toJson target), ("source", toJson source)])
    | .fieldRead target base field => .tagged "FieldRead"
        (.record [("target", toJson target), ("base", toJson base), ("field", toJson field)])
    | .binary target operator left right => .tagged "BinaryOperation"
        (.record [("target", toJson target), ("operator", toJson operator),
          ("left", toJson left), ("right", toJson right)])
    | .create target className => .tagged "New"
        (.record [("target", toJson target), ("class", toJson className)])
    | .invoke result method receiver arguments => .tagged "Invoke"
        (.record [("result", toJson result), ("method", toJson method),
          ("base", toJson receiver), ("arguments", toJson arguments)])
    | .giveBack value => .tagged "Return" (.record [("value", toJson value)])
  ofJson? j :=
    match j.case? with
    | some ("Identity", some contents) =>
      match contents.slots? ["target", "parameter"] with
      | some [target, parameter] => do return .identity (← target.required) (← parameter.required)
      | _ => none
    | some ("Assign", some contents) =>
      match contents.slots? ["target", "source"] with
      | some [target, source] => do return .assign (← target.required) (← source.required)
      | _ => none
    | some ("FieldRead", some contents) =>
      match contents.slots? ["target", "base", "field"] with
      | some [target, base, field] => do
        return .fieldRead (← target.required) (← base.required) (← field.required)
      | _ => none
    | some ("BinaryOperation", some contents) =>
      match contents.slots? ["target", "operator", "left", "right"] with
      | some [target, operator, left, right] => do
        return .binary (← target.required) (← operator.required) (← left.required)
          (← right.required)
      | _ => none
    | some ("New", some contents) =>
      match contents.slots? ["target", "class"] with
      | some [target, className] => do
        return .create (← target.required) (← className.required)
      | _ => none
    | some ("Invoke", some contents) =>
      match contents.slots? ["result", "method", "base", "arguments"] with
      | some [result, method, receiver, arguments] => do
        return .invoke (← result.optional) (← method.required) (← receiver.optional)
          (← arguments.orElse [])
      | _ => none
    | some ("Return", some contents) =>
      match contents.slots? ["value"] with
      | some [value] => do return .giveBack (← value.optional)
      | _ => none
    | _ => none

instance : Wire Statement where
  toJson s := .record [("guard", toJson s.guard), ("instruction", toJson s.instruction)]
  ofJson? j :=
    match j.slots? ["guard", "instruction"] with
    | some [guard, instruction] => do return ⟨← guard.optional, ← instruction.required⟩
    | _ => none

instance : Wire Body where
  toJson b := .record [("method", toJson b.method), ("statements", toJson b.statements)]
  ofJson? j :=
    match j.slots? ["method", "statements"] with
    | some [method, statements] => do return ⟨← method.required, ← statements.orElse []⟩
    | _ => none

instance : Wire Program where
  toJson p := .record [("methods", toJson p.methods)]
  ofJson? j :=
    match j.slots? ["methods"] with
    | some [methods] => do return ⟨← methods.orElse []⟩
    | _ => none

def Program.load? (text : String) : Option Program := Wire.read? Program text

end Provenance
