import Provenance.Double
import Provenance.Json.Wire
import Provenance.Text.Quoted

set_option autoImplicit false

namespace Provenance

inductive Constant where
  | char (c : Char)
  | falseLiteral
  | double (bits : UInt64)
  /-- A number of any integral type. -/
  | int (n : Int64)
  | null
  | str (text : String)
  | trueLiteral
  deriving DecidableEq, Ord

namespace Constant

/-- The text that the constant contributes to a string. -/
def render : Constant → String
  | .char c => String.singleton c
  | .falseLiteral => "false"
  | .double bits => Double.text bits
  | .int n => String.ofList (Decimal.intText n.toInt)
  | .null => "null"
  | .str text => text
  | .trueLiteral => "true"

def text : Constant → String
  | .char c => Text.Quoted.quote '\'' (String.singleton c)
  | .str s => Text.Quoted.quote '"' s
  | c => c.render

def staticType : Constant → String
  | .char _ => "char"
  | .falseLiteral | .trueLiteral => "boolean"
  | .double _ => "double"
  | .int _ => "int"
  | .null => "null_type"
  | .str _ => "java.lang.String"

def asInt? : Constant → Option Int64
  | .int n => some n
  | _ => none

def asStr? : Constant → Option String
  | .str s => some s
  | _ => none

/-- Stands in a string for text that could not be determined. -/
def unresolvedMarker : String := "UNKNOWN_STRING"

def occursIn (pattern : List Char) : List Char → Bool
  | [] => pattern.isEmpty
  | c :: rest => pattern.isPrefixOf (c :: rest) || occursIn pattern rest

def isUnresolved : Constant → Bool
  | .str s => occursIn unresolvedMarker.toList s.toList
  | _ => false

def concat (a b : Constant) : Constant := .str (a.render ++ b.render)

def valueOf (c : Constant) : Constant := .str c.render

/-- The part of a string between two positions, counted in 16-bit units; without a second position
it reaches to the end. There is none if the positions are out of range or cut a character, or if
the string is unresolved. -/
def substring? (c : Constant) (start : Int) (stop : Option Int) : Option Constant :=
  match c with
  | .str s =>
    if c.isUnresolved then none
    else
      let stop := stop.getD (Text.Units.encode s.toList).length
      if 0 ≤ start ∧ 0 ≤ stop then
        (Text.Units.slice s.toList start.toNat stop.toNat).map fun cs => .str (String.ofList cs)
      else none
  | _ => none

end Constant

instance : Wire Constant where
  toJson
    | .char c => .tagged "Char" (toJson c)
    | .falseLiteral => .str "False"
    | .double bits => .tagged "F64" (toJson bits)
    | .int n => .tagged "I64" (toJson n)
    | .null => .str "Null"
    | .str s => .tagged "Str" (toJson s)
    | .trueLiteral => .str "True"
  ofJson? j :=
    match j.case? with
    | some ("Char", some c) => (ofJson? c).map .char
    | some ("F64", some bits) => (ofJson? bits).map .double
    | some ("I64", some n) => (ofJson? n).map .int
    | some ("Str", some s) => (ofJson? s).map .str
    | some ("False", contents) => if Json.isBare contents then some .falseLiteral else none
    | some ("Null", contents) => if Json.isBare contents then some .null else none
    | some ("True", contents) => if Json.isBare contents then some .trueLiteral else none
    | _ => none

end Provenance
