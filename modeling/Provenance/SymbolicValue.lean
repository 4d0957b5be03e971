import Provenance.Expression
import Provenance.Table
import Provenance.TagSet

/-!
Symbolic values: what an operand may hold, as an expression over operands, with a snapshot of what
those operands held when the value was made and with the tags of the data it may contain. A
snapshot is never updated, so a value means the same whatever is written later. The text of a value
writes operands through the snapshot.
-/

set_option autoImplicit false

namespace Provenance

structure SymbolicValue where
  expression : Expression
  /-- The number of values that the snapshot unfolds to, this one included. -/
  size : Nat
  tags : TagSet
  snapshot : Table Operand (List SymbolicValue)

/-- What operands held at one moment. -/
abbrev Snapshot := Table Operand (List SymbolicValue)

/-- An order in which the entries of a snapshot are visited. A snapshot has no order of its own;
all that can depend on the choice is the order in which a new value lists its tags. -/
class Enumeration where
  entries : Snapshot → List (Operand × List SymbolicValue)
  perm : ∀ s : Snapshot, (entries s).Perm s.entries

instance Enumeration.ascending : Enumeration where
  entries s := s.entries
  perm s := List.Perm.refl s.entries

namespace Snapshot

def tags [Enumeration] (s : Snapshot) : TagSet :=
  TagSet.unions (((Enumeration.entries s).flatMap (·.2)).map SymbolicValue.tags)

def size (s : Snapshot) : Nat :=
  (s.entries.flatMap (·.2)).foldr (fun v n => v.size + n) 0

end Snapshot

namespace SymbolicValue

def sizeLimit : Nat := 1000

def leaf (e : Expression) : SymbolicValue := ⟨e, 1, .empty, .empty⟩

instance : Inhabited SymbolicValue := ⟨leaf (.unknown [])⟩

/-- The value of an expression over a snapshot. It starts with the tags of every value in the
snapshot; a snapshot that is too large is forgotten, its tags are not. -/
def make [Enumeration] (e : Expression) (s : Snapshot) : SymbolicValue where
  expression := e
  size := min (Snapshot.size s + 1) sizeLimit
  tags := Snapshot.tags s
  snapshot := if sizeLimit < Snapshot.size s + 1 then .empty else s

def constant (c : Constant) : SymbolicValue := leaf (.constant c)

def symbol (o : Operand) : SymbolicValue := leaf (.symbol o)

def returned (o : Operand) : SymbolicValue := leaf (.returned o)

def unknown : SymbolicValue := leaf (.unknown [])

def annotate (v : SymbolicValue) (note : String) : SymbolicValue :=
  match v.expression with
  | .unknown annotations => { v with expression := .unknown (annotations ++ [note]) }
  | _ => v

def unknownFor (o : Operand) : SymbolicValue := unknown.annotate o.text

def addTag (v : SymbolicValue) (t : Tag) : SymbolicValue := { v with tags := v.tags.insert t }

def addTags (v : SymbolicValue) (ts : TagSet) : SymbolicValue := { v with tags := v.tags.union ts }

def kind (v : SymbolicValue) : Kind := v.expression.kind

def constant? (v : SymbolicValue) : Option Constant :=
  match v.expression with
  | .constant c => some c
  | _ => none

def isTagged (v : SymbolicValue) : Bool := !v.tags.isEmpty

mutual

/-- Two values agree if their expressions, their tags in order and their snapshots do. The size
is not compared: it also counts values of a snapshot that was forgotten. -/
def agrees : SymbolicValue → SymbolicValue → Bool
  | ⟨e, _, ts, ⟨entries⟩⟩, ⟨e', _, ts', ⟨entries'⟩⟩ =>
    e == e' && ts == ts' && agreeEntries entries entries'

def agreeEntries : List (Operand × List SymbolicValue) → List (Operand × List SymbolicValue) → Bool
  | [], [] => true
  | (o, vs) :: rest, (o', vs') :: rest' =>
    o == o' && agreeValues vs vs' && agreeEntries rest rest'
  | _, _ => false

def agreeValues : List SymbolicValue → List SymbolicValue → Bool
  | [], [] => true
  | v :: rest, v' :: rest' => agrees v v' && agreeValues rest rest'
  | _, _ => false

end

end SymbolicValue

/-- An operand with the texts of the values recorded for it: one stands for itself, several stand
in braces, and without any the operand is named. -/
def Operand.textAmong (texts : List (Operand × List String)) (o : Operand) : String :=
  match texts.lookup o with
  | some [text] => text
  | some (text :: more) => "\x7b" ++ ", ".intercalate (text :: more) ++ "\x7d"
  | _ => o.text

namespace SymbolicValue

mutual

/-- The text as part of a larger one, where constants are written as literals. -/
def operandText : SymbolicValue → String
  | ⟨.constant c, _, _, _⟩ => c.text
  | ⟨e, _, _, ⟨entries⟩⟩ => e.textWith (Operand.textAmong (entryTexts entries))

def entryTexts : List (Operand × List SymbolicValue) → List (Operand × List String)
  | [] => []
  | (o, values) :: rest => (o, valueTexts values) :: entryTexts rest

def valueTexts : List SymbolicValue → List String
  | [] => []
  | v :: rest => operandText v :: valueTexts rest

end

def text (v : SymbolicValue) : String :=
  v.expression.textWith (Operand.textAmong (entryTexts v.snapshot.entries))

def label (v : SymbolicValue) : String := if v.isTagged then v.tags.text else v.text

def description (v : SymbolicValue) : String :=
  if v.isTagged then v.text ++ " [" ++ v.tags.text ++ "]" else v.text

/-- Adds a value to a list in which no text occurs twice. A value that is there under the same text
takes the tags of the new one. -/
def addResult : List SymbolicValue → SymbolicValue → List SymbolicValue
  | [], v => [v]
  | r :: rest, v =>
    if r.text = v.text then
      (if v.tags.subset r.tags then r else r.addTags v.tags) :: rest
    else r :: addResult rest v

def distinct (values : List SymbolicValue) : List SymbolicValue := values.foldl addResult []

end SymbolicValue

end Provenance
