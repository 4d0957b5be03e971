import Provenance.Json.Basic

/-!
JSON trees from texts, by two machines. The first takes one character at a time and drops the white
space between tokens, so that every layout of a document has the same tokens. The second takes one
token at a time and keeps the containers that are still open on a stack.
-/

set_option autoImplicit false

namespace Provenance.Json

inductive Token where
  | openObject
  | closeObject
  | openArray
  | closeArray
  | comma
  | colon
  | null
  | bool (b : Bool)
  | integer (n : Int)
  | decimal (spelling : List Char)
  | string (literal : Literal)
  deriving DecidableEq

namespace Token

def isTail (text : List Char) : Bool :=
  let afterFraction :=
    match text with
    | '.' :: rest =>
      if (rest.takeWhile Char.isDigit).isEmpty then none else some (rest.dropWhile Char.isDigit)
    | rest => some rest
  match afterFraction with
  | none => false
  | some [] => true
  | some (e :: rest) =>
    let digits :=
      match rest with
      | '+' :: digits => digits
      | '-' :: digits => digits
      | digits => digits
    (e == 'e' || e == 'E') && (Decimal.readNat? digits).isSome

/-- A number without its sign. A whole part of several digits does not start with a zero. -/
def ofMagnitude? (isNegative : Bool) (spelling text : List Char) : Option Token :=
  let whole := text.takeWhile Char.isDigit
  let tail := text.dropWhile Char.isDigit
  if whole.isEmpty ∨ (whole.head? = some '0' ∧ 1 < whole.length) then none
  else if tail.isEmpty then
    if isNegative then
      if whole = ['0'] then some (.decimal spelling)
      else (Decimal.readNat? whole).map fun n => .integer (-n)
    else (Decimal.readNat? whole).map fun n => .integer n
  else if isTail tail then some (.decimal spelling)
  else none

def ofNumber? (spelling : List Char) : Option Token :=
  match spelling with
  | '-' :: text => ofMagnitude? true spelling text
  | text => ofMagnitude? false spelling text

def ofWord? (word : List Char) : Option Token :=
  if word = "null".toList then some .null
  else if word = "true".toList then some (.bool true)
  else if word = "false".toList then some (.bool false)
  else none

def ofPunctuation? (c : Char) : Option Token :=
  if c = '\x7b' then some .openObject
  else if c = '\x7d' then some .closeObject
  else if c = '[' then some .openArray
  else if c = ']' then some .closeArray
  else if c = ',' then some .comma
  else if c = ':' then some .colon
  else none

end Token

/-- A string literal under way: the characters so far, the last one first, and a high surrogate
that still waits for its partner. The characters are gone once a surrogate has missed it. -/
structure Unfinished where
  reversed : Option (List Char)
  waiting : Option Nat

namespace Unfinished

def start : Unfinished := ⟨some [], none⟩

def push (p : Unfinished) (c : Char) : Unfinished :=
  match p.waiting with
  | none => ⟨p.reversed.map (c :: ·), none⟩
  | some _ => ⟨none, none⟩

def pushUnit (p : Unfinished) (u : Nat) : Unfinished :=
  match p.waiting with
  | some high =>
    if Text.Units.isLow u then ⟨p.reversed.map (Text.Units.join high u :: ·), none⟩
    else if Text.Units.isHigh u then ⟨none, some u⟩
    else ⟨none, none⟩
  | none =>
    if Text.Units.isHigh u then ⟨p.reversed, some u⟩
    else if Text.Units.isLow u then ⟨none, none⟩
    else ⟨p.reversed.map (Char.ofNat u :: ·), none⟩

def literal (p : Unfinished) : Literal :=
  match p.waiting with
  | none => p.reversed.map fun cs => String.ofList cs.reverse
  | some _ => none

end Unfinished

/-- Where the machine stands within a token. Characters are kept the last one first. -/
inductive Lexeme where
  | blank
  | word (letters : List Char)
  | number (spelling : List Char)
  | text (p : Unfinished)
  | escape (p : Unfinished)
  | unit (p : Unfinished) (digits value : Nat)

structure Lexer where
  tokens : List Token
  lexeme : Lexeme

namespace Lexer

def start : Lexer := ⟨[], .blank⟩

def emit (l : Lexer) (t : Token) : Lexer := ⟨t :: l.tokens, .blank⟩

def isSpace (c : Char) : Bool := c == ' ' || c == '\n' || c == '\t' || c == '\r'

def isNumeric (c : Char) : Bool :=
  c.isDigit || c == '-' || c == '+' || c == '.' || c == 'e' || c == 'E'

def open? (tokens : List Token) (c : Char) : Option Lexer :=
  if isSpace c then some ⟨tokens, .blank⟩
  else if c = '"' then some ⟨tokens, .text .start⟩
  else if c.isDigit ∨ c = '-' then some ⟨tokens, .number [c]⟩
  else if c.isLower then some ⟨tokens, .word [c]⟩
  else (Token.ofPunctuation? c).map fun t => ⟨t :: tokens, .blank⟩

def named? (c : Char) : Option Char :=
  if c = '"' then some '"'
  else if c = '\\' then some '\\'
  else if c = '/' then some '/'
  else if c = 'b' then some '\x08'
  else if c = 'f' then some '\x0c'
  else if c = 'n' then some '\n'
  else if c = 'r' then some '\r'
  else if c = 't' then some '\t'
  else none

/-- Takes one character. Words and numbers end before the first character that cannot belong to
them. Control characters may not stand in a string literal. -/
def step? (l : Lexer) (c : Char) : Option Lexer :=
  match l.lexeme with
  | .blank => open? l.tokens c
  | .word letters =>
    if c.isLower then some ⟨l.tokens, .word (c :: letters)⟩
    else (Token.ofWord? letters.reverse).bind fun t => open? (t :: l.tokens) c
  | .number spelling =>
    if isNumeric c then some ⟨l.tokens, .number (c :: spelling)⟩
    else (Token.ofNumber? spelling.reverse).bind fun t => open? (t :: l.tokens) c
  | .text p =>
    if c = '"' then some (l.emit (.string p.literal))
    else if c = '\\' then some ⟨l.tokens, .escape p⟩
    else if c.toNat < 0x20 then none
    else some ⟨l.tokens, .text (p.push c)⟩
  | .escape p =>
    if c = 'u' then some ⟨l.tokens, .unit p 0 0⟩
    else (named? c).map fun d => ⟨l.tokens, .text (p.push d)⟩
  | .unit p digits value =>
    (Text.hexValue? c).map fun d =>
      if digits = 3 then ⟨l.tokens, .text (p.pushUnit (16 * value + d))⟩
      else ⟨l.tokens, .unit p (digits + 1) (16 * value + d)⟩

def finish? (l : Lexer) : Option (List Token) :=
  match l.lexeme with
  | .blank => some l.tokens.reverse
  | .word letters => (Token.ofWord? letters.reverse).map fun t => (t :: l.tokens).reverse
  | .number spelling => (Token.ofNumber? spelling.reverse).map fun t => (t :: l.tokens).reverse
  | _ => none

end Lexer

def tokens? (text : List Char) : Option (List Token) :=
  (text.foldlM Lexer.step? Lexer.start).bind Lexer.finish?

/-- A container that is still open, with what it holds so far, the last item first. A member
waits for its value under the name given. -/
inductive Frame where
  | array (items : List Json)
  | member (members : List (Literal × Json)) (name : Literal)

inductive Expecting where
  /-- A value; the flag allows the end of an array instead. -/
  | value (orEnd : Bool)
  /-- A member's name; the flag allows the end of the object instead. -/
  | name (members : List (Literal × Json)) (orEnd : Bool)
  | colon (members : List (Literal × Json)) (name : Literal)
  | more (value : Json)

structure Reader where
  stack : List Frame
  expecting : Expecting

namespace Reader

def start : Reader := ⟨[], .value false⟩

def deliver (stack : List Frame) (value : Json) : Reader := ⟨stack, .more value⟩

def begin? (stack : List Frame) (orEnd : Bool) : Token → Option Reader
  | .openObject => some ⟨stack, .name [] true⟩
  | .openArray => some ⟨.array [] :: stack, .value true⟩
  | .closeArray =>
    match orEnd, stack with
    | true, .array [] :: outer => some (deliver outer (.array []))
    | _, _ => none
  | .null => some (deliver stack .null)
  | .bool b => some (deliver stack (.bool b))
  | .integer n => some (deliver stack (.integer n))
  | .decimal spelling => some (deliver stack (.decimal spelling))
  | .string literal => some (deliver stack (.string literal))
  | _ => none

def continue? (value : Json) : List Frame → Token → Option Reader
  | .array items :: outer, .comma => some ⟨.array (value :: items) :: outer, .value false⟩
  | .array items :: outer, .closeArray => some (deliver outer (.array (value :: items).reverse))
  | .member members name :: outer, .comma =>
    some ⟨outer, .name ((name, value) :: members) false⟩
  | .member members name :: outer, .closeObject =>
    some (deliver outer (.object ((name, value) :: members).reverse))
  | _, _ => none

def step? (r : Reader) (t : Token) : Option Reader :=
  match r.expecting with
  | .value orEnd => begin? r.stack orEnd t
  | .more value => continue? value r.stack t
  | .name members orEnd =>
    match t with
    | .string literal => some ⟨r.stack, .colon members literal⟩
    | .closeObject => if orEnd then some (deliver r.stack (.object [])) else none
    | _ => none
  | .colon members name =>
    match t with
    | .colon => some ⟨.member members name :: r.stack, .value false⟩
    | _ => none

def finish? (r : Reader) : Option Json :=
  match r.stack, r.expecting with
  | [], .more value => some value
  | _, _ => none

end Reader

def ofTokens? (ts : List Token) : Option Json :=
  (ts.foldlM Reader.step? Reader.start).bind Reader.finish?

def parse? (text : String) : Option Json :=
  (tokens? text.toList).bind ofTokens?

end Provenance.Json
