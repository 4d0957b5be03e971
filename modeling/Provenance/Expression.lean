import Provenance.Program

set_option autoImplicit false

namespace Provenance

inductive Expression where
  | binary (left : Operand) (operator : Operator) (right : Operand)
  | constant (value : Constant)
  | field (base : Operand) (name : String)
  | call (method : Method) (receiver : Option Operand) (arguments : List Operand)
  | object (className : String) (arguments : List Operand)
  | returned (operand : Operand)
  /-- Nothing better is known; the annotations tell where the value came from. -/
  | unknown (annotations : List String)
  | symbol (operand : Operand)
  deriving DecidableEq, Ord

inductive Kind where
  | constant
  | call
  | object
  | symbolic
  | unknown
  deriving DecidableEq, Ord

def Kind.all : List Kind := [.constant, .call, .object, .symbolic, .unknown]

def Kind.name : Kind → String
  | .constant => "Constant"
  | .call => "MethodRepresentation"
  | .object => "Object"
  | .symbolic => "Symbolic"
  | .unknown => "Unknown"

namespace Expression

def kind : Expression → Kind
  | .constant _ => .constant
  | .call _ _ _ => .call
  | .object _ _ => .object
  | .binary _ _ _ | .field _ _ | .returned _ | .symbol _ => .symbolic
  | .unknown _ => .unknown

def base? : Expression → Option Operand
  | .field base _ => some base
  | .call _ receiver _ => receiver
  | _ => none

def operands : Expression → List Operand
  | .binary left _ right => [left, right]
  | .constant _ | .unknown _ => []
  | .field base _ => [base]
  | .call _ receiver arguments => receiver.toList ++ arguments
  | .object _ arguments => arguments
  | .returned operand | .symbol operand => [operand]

/-- The text of an expression whose operands are written as given. What a call returns and what a
symbol stands for is always named by the operand itself. -/
def textWith (operand : Operand → String) : Expression → String
  | .binary left operator right =>
    operand left ++ " " ++ operator.symbol ++ " " ++ operand right
  | .constant c => c.render
  | .field base name => operand base ++ "." ++ name
  | .call method receiver arguments =>
    (match receiver with
      | some base => operand base
      | none => Method.simpleName method.className) ++
      "." ++ method.name ++ "(" ++ ", ".intercalate (arguments.map operand) ++ ")"
  | .object className arguments =>
    "new " ++ Method.simpleName className ++ "(" ++ ", ".intercalate (arguments.map operand) ++ ")"
  | .returned o => "return(" ++ o.text ++ ")"
  | .unknown [] => "UNKNOWN"
  | .unknown annotations => "UNKNOWN(" ++ ", ".intercalate annotations ++ ")"
  | .symbol o => o.text

end Expression

instance : Wire Kind where
  toJson k := .str k.name
  ofJson? := Json.caseNamed? Kind.all Kind.name

instance : Wire Expression where
  toJson
    | .binary left operator right => .tagged "BinaryOperation"
        (.record [("left", toJson left), ("operator", toJson operator), ("right", toJson right)])
    | .constant c => .tagged "CompileTimeConstant" (toJson c)
    | .field base name => .tagged "Field"
        (.record [("base", toJson base), ("field", toJson name)])
    | .call method receiver arguments => .tagged "MethodRepresentation"
        (.record [("method", toJson method), ("base", toJson receiver),
          ("arguments", toJson arguments)])
    | .object className arguments => .tagged "Object"
        (.record [("class", toJson className), ("arguments", toJson arguments)])
    | .returned operand => .tagged "ReturnValue" (toJson operand)
    | .unknown annotations => .tagged "Unknown"
        (.record [("annotations", toJson annotations)])
    | .symbol operand => .tagged "Variable" (toJson operand)
  ofJson? j :=
    match j.case? with
    | some ("BinaryOperation", some contents) =>
      match contents.slots? ["left", "operator", "right"] with
      | some [left, operator, right] => do
        return .binary (← left.required) (← operator.required) (← right.required)
      | _ => none
    | some ("CompileTimeConstant", some c) => (ofJson? c).map .constant
    | some ("Field", some contents) =>
      match contents.slots? ["base", "field"] with
      | some [base, name] => do return .field (← base.required) (← name.required)
      | _ => none
    | some ("MethodRepresentation", some contents) =>
      match contents.slots? ["method", "base", "arguments"] with
      | some [method, receiver, arguments] => do
        return .call (← method.required) (← receiver.nullable) (← arguments.required)
      | _ => none
    | some ("Object", some contents) =>
      match contents.slots? ["class", "arguments"] with
      | some [className, arguments] => do
        return .object (← className.required) (← arguments.required)
      | _ => none
    | some ("ReturnValue", some operand) => (ofJson? operand).map .returned
    | some ("Unknown", some contents) =>
      match contents.slots? ["annotations"] with
      | some [annotations] => do return .unknown (← annotations.required)
      | _ => none
    | some ("Variable", some operand) => (ofJson? operand).map .symbol
    | _ => none

end Provenance
