import Provenance.SymbolicValue

/-!
The environment of a body: what every operand was given over time, write by write. An operand that
was never written is looked up by its printed form, since the same variable may reach the
environment with different types.
-/

set_option autoImplicit false

namespace Provenance

/-- What one operand was given, the oldest entry first, each with the condition under which it
was given. -/
structure History where
  entries : List (Option Condition × List SymbolicValue)

namespace History

def empty : History := ⟨[]⟩

def size (h : History) : Nat := h.entries.length

def record (h : History) (condition : Option Condition) (values : List SymbolicValue) : History :=
  ⟨h.entries ++ [(condition, values)]⟩

/-- Without a condition every entry counts; with one, those count that were recorded under it or
under none. -/
def isCoherent (query entry : Option Condition) : Bool :=
  match query, entry with
  | some c, some d => c == d
  | _, _ => true

def latest? (h : History) (condition : Option Condition) : Option (List SymbolicValue) :=
  (h.entries.reverse.find? fun e => isCoherent condition e.1).map (·.2)

def agreeEntries : List (Option Condition × List SymbolicValue) →
    List (Option Condition × List SymbolicValue) → Bool
  | [], [] => true
  | (c, vs) :: rest, (c', vs') :: rest' =>
    c == c' && SymbolicValue.agreeValues vs vs' && agreeEntries rest rest'
  | _, _ => false

def agrees (h h' : History) : Bool := agreeEntries h.entries h'.entries

end History

structure Environment where
  histories : Table Operand History
  /-- For each printed form, the operand that was written under it last. -/
  byText : Table String Operand
  /-- More values than this are not kept apart. -/
  limit : Nat

namespace Environment

def defaultLimit : Nat := 16

def new (limit : Nat) : Environment := ⟨.empty, .empty, limit⟩

instance : Inhabited Environment := ⟨new defaultLimit⟩

def size (env : Environment) : Nat := env.histories.size

def isEmpty (env : Environment) : Bool := env.histories.isEmpty

/-- The history of an operand, or else of the operand that was last written with its text. -/
def get? (env : Environment) (o : Operand) : Option History :=
  match env.histories.get? o with
  | some h => some h
  | none => (env.byText.get? o.text).bind env.histories.get?

def resolve? (env : Environment) (o : Operand) : Option (List SymbolicValue) :=
  (env.get? o).bind (·.latest? none)

def resolveOperand? (env : Environment) (o : Operand) : Option (List SymbolicValue) :=
  match o with
  | .literal c => some [.constant c]
  | o => env.resolve? o

def resolveOrUnknown (env : Environment) (o : Operand) : List SymbolicValue :=
  match env.resolveOperand? o with
  | some (v :: rest) => v :: rest
  | _ => [.unknownFor o]

def tagsOf (env : Environment) (o : Operand) : TagSet :=
  TagSet.unions (((env.resolve? o).getD []).map SymbolicValue.tags)

/-- Too many values become one unknown value with the tags of all of them. -/
def collapse (limit : Nat) (o : Operand) (values : List SymbolicValue) : List SymbolicValue :=
  if limit < values.length then
    [(SymbolicValue.unknownFor o).addTags (TagSet.unions (values.map SymbolicValue.tags))]
  else values

def update (env : Environment) (o : Operand) (values : List SymbolicValue)
    (condition : Option Condition) : Environment :=
  let history := (env.histories.get? o).getD .empty
  { env with
    histories := env.histories.insert o
      (history.record condition (collapse env.limit o values))
    byText := env.byText.insert o.text o }

theorem histories_update (env : Environment) (o j : Operand) (values : List SymbolicValue)
    (condition : Option Condition) :
    (env.update o values condition).histories.get? j =
      if j = o then
        some (((env.histories.get? o).getD .empty).record condition (collapse env.limit o values))
      else env.histories.get? j :=
  Table.get?_insert _ _ _ _

theorem byText_update (env : Environment) (o : Operand) (values : List SymbolicValue)
    (condition : Option Condition) (text : String) :
    (env.update o values condition).byText.get? text =
      if text = o.text then some o else env.byText.get? text :=
  Table.get?_insert _ _ _ _

/-- What the given operands hold now. Literals and operands without values are left out. -/
def capture (env : Environment) (operands : List Operand) : Snapshot :=
  operands.foldl
    (fun s o =>
      if o.isLiteral then s
      else match env.resolve? o with
        | some values => s.insert o values
        | none => s)
    .empty

def agreeHistories : List (Operand × History) → List (Operand × History) → Bool
  | [], [] => true
  | (o, h) :: rest, (o', h') :: rest' => o == o' && h.agrees h' && agreeHistories rest rest'
  | _, _ => false

def agrees (env env' : Environment) : Bool :=
  agreeHistories env.histories.entries env'.histories.entries &&
    env.byText.entries == env'.byText.entries && env.limit == env'.limit

def description (env : Environment) : String :=
  let entry (e : Operand × History) : String :=
    Text.Escaped.quote e.1.text ++ ": " ++
      match e.2.latest? none with
      | some values => "Some([" ++ ", ".intercalate (values.map SymbolicValue.description) ++ "])"
      | none => "None"
  "\x7b" ++ ", ".intercalate (env.histories.entries.map entry) ++ "\x7d"

end Environment

def SymbolicValue.makeIn [Enumeration] (env : Environment) (e : Expression) : SymbolicValue :=
  .make e (env.capture e.operands)

end Provenance
