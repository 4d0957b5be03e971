import Provenance.Json.Reader

/-!
The JSON forms of values. A type on the wire has one form in which it is written, and may be read
from several. Records are written as objects and are also read from arrays of their fields in
order; a case of a choice is written as an object with one member named for the case, or as the
bare name if it carries nothing.
-/

set_option autoImplicit false

namespace Provenance

class Wire (α : Type) where
  toJson : α → Json
  ofJson? : Json → Option α

export Wire (toJson ofJson?)

def Wire.read? (α : Type) [Wire α] (text : String) : Option α :=
  (Json.parse? text).bind ofJson?

namespace Json

inductive Slot where
  | given (value : Json)
  /-- The object has no such member. -/
  | missing
  /-- The array ends before the field. -/
  | cut

def slotsOfItems : List String → List Json → Option (List Slot)
  | [], [] => some []
  | [], _ :: _ => none
  | _ :: names, [] => (slotsOfItems names []).map (.cut :: ·)
  | _ :: names, item :: rest => (slotsOfItems names rest).map (.given item :: ·)

def slotOfMembers (members : List (Literal × Json)) (name : String) : Option Slot :=
  match members.filter (fun m => m.1 == some name) with
  | [] => some .missing
  | [m] => some (.given m.2)
  | _ => none

/-- The slots of a record. Members with other names are passed over, but each name must be
readable. -/
def slots? (names : List String) : Json → Option (List Slot)
  | .array items => slotsOfItems names items
  | .object members =>
    if members.all (·.1.isSome) then names.mapM (slotOfMembers members) else none
  | _ => none

def Slot.required {α : Type} [Wire α] : Slot → Option α
  | .given value => ofJson? value
  | .missing | .cut => none

def Slot.orElse {α : Type} [Wire α] (value : α) : Slot → Option α
  | .given j => ofJson? j
  | .missing | .cut => some value

def orNull {α : Type} [Wire α] : Json → Option (Option α)
  | .null => some none
  | j => (ofJson? j).map some

/-- A field that may be null or left out altogether. -/
def Slot.optional {α : Type} [Wire α] : Slot → Option (Option α)
  | .given j => orNull j
  | .missing | .cut => some none

/-- A field that may be null or left out of an object, but not of an array. -/
def Slot.nullable {α : Type} [Wire α] : Slot → Option (Option α)
  | .given j => orNull j
  | .missing => some none
  | .cut => none

def case? : Json → Option (String × Option Json)
  | .string (some name) => some (name, none)
  | .object [(some name, value)] => some (name, some value)
  | _ => none

/-- A case that carries nothing is written as its name, and may be read with null. -/
def isBare : Option Json → Bool
  | none | some .null => true
  | _ => false

def caseNamed? {α : Type} (all : List α) (name : α → String) (j : Json) : Option α :=
  match j.case? with
  | some (given, contents) =>
    if isBare contents then all.find? (fun a => name a == given) else none
  | none => none

def tagged (name : String) (contents : Json) : Json := .record [(name, contents)]

end Json

instance : Wire String where
  toJson := .str
  ofJson?
    | .string literal => literal
    | _ => none

instance : Wire Bool where
  toJson := .bool
  ofJson?
    | .bool b => some b
    | _ => none

instance : Wire Char where
  toJson c := .str (String.singleton c)
  ofJson?
    | .string (some text) =>
      match text.toList with
      | [c] => some c
      | _ => none
    | _ => none

instance : Wire UInt64 where
  toJson n := .integer n.toNat
  ofJson?
    | .integer n => if 0 ≤ n ∧ n.toNat < UInt64.size then some (UInt64.ofNat n.toNat) else none
    | _ => none

instance : Wire Int64 where
  toJson n := .integer n.toInt
  ofJson?
    | .integer n =>
      if Int64.minValue.toInt ≤ n ∧ n ≤ Int64.maxValue.toInt then some (Int64.ofInt n) else none
    | _ => none

instance {α : Type} [Wire α] : Wire (List α) where
  toJson items := .array (items.map toJson)
  ofJson?
    | .array items => items.mapM ofJson?
    | _ => none

instance {α : Type} [Wire α] : Wire (Option α) where
  toJson
    | none => .null
    | some a => toJson a
  ofJson? := Json.orNull

end Provenance
