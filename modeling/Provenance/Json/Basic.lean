import Provenance.Decimal
import Provenance.Text.Units

set_option autoImplicit false

namespace Provenance

/-- What a string literal denotes: `none` if its escapes leave a surrogate without a partner, for
then no text has that spelling. -/
abbrev Literal := Option String

inductive Json where
  | null
  | bool (b : Bool)
  | integer (n : Int)
  /-- Any other number, as it is spelled. Minus zero counts among these. -/
  | decimal (spelling : List Char)
  | string (literal : Literal)
  | array (items : List Json)
  | object (members : List (Literal × Json))

namespace Json

def str (text : String) : Json := .string (some text)

def record (fields : List (String × Json)) : Json :=
  .object (fields.map fun (name, value) => (some name, value))

end Json

end Provenance

namespace Provenance.Json

def escape (c : Char) : List Char :=
  if c = '"' then ['\\', '"']
  else if c = '\\' then ['\\', '\\']
  else if c = '\x08' then ['\\', 'b']
  else if c = '\x0c' then ['\\', 'f']
  else if c = '\n' then ['\\', 'n']
  else if c = '\r' then ['\\', 'r']
  else if c = '\t' then ['\\', 't']
  else if c.toNat < 0x20 then '\\' :: 'u' :: Text.hex4 c.toNat
  else [c]

/-- A literal that denotes no text is written as one surrogate without a partner. -/
def literalText : Literal → List Char
  | some text => '"' :: text.toList.flatMap escape ++ ['"']
  | none => '"' :: '\\' :: 'u' :: Text.hex4 0xd800 ++ ['"']

mutual

def compactText : Json → List Char
  | .null => "null".toList
  | .bool b => if b then "true".toList else "false".toList
  | .integer n => Decimal.intText n
  | .decimal spelling => spelling
  | .string literal => literalText literal
  | .array items => '[' :: compactItems items ++ [']']
  | .object members => '\x7b' :: compactMembers members ++ ['\x7d']

def compactItems : List Json → List Char
  | [] => []
  | [item] => compactText item
  | item :: rest => compactText item ++ ',' :: compactItems rest

def compactMembers : List (Literal × Json) → List Char
  | [] => []
  | [(name, value)] => literalText name ++ ':' :: compactText value
  | (name, value) :: rest =>
    literalText name ++ ':' :: compactText value ++ ',' :: compactMembers rest

end

def compact (j : Json) : String := String.ofList (compactText j)

def newline (level : Nat) : List Char := '\n' :: List.replicate (2 * level) ' '

mutual

def prettyText (level : Nat) : Json → List Char
  | .null => "null".toList
  | .bool b => if b then "true".toList else "false".toList
  | .integer n => Decimal.intText n
  | .decimal spelling => spelling
  | .string literal => literalText literal
  | .array [] => ['[', ']']
  | .array items => '[' :: prettyItems (level + 1) items ++ newline level ++ [']']
  | .object [] => ['\x7b', '\x7d']
  | .object members =>
    '\x7b' :: prettyMembers (level + 1) members ++ newline level ++ ['\x7d']

def prettyItems (level : Nat) : List Json → List Char
  | [] => []
  | [item] => newline level ++ prettyText level item
  | item :: rest => newline level ++ prettyText level item ++ ',' :: prettyItems level rest

def prettyMembers (level : Nat) : List (Literal × Json) → List Char
  | [] => []
  | [(name, value)] => newline level ++ literalText name ++ ':' :: ' ' :: prettyText level value
  | (name, value) :: rest =>
    newline level ++ literalText name ++ ':' :: ' ' :: prettyText level value ++
      ',' :: prettyMembers level rest

end

def pretty (j : Json) : String := String.ofList (prettyText 0 j)

end Provenance.Json
