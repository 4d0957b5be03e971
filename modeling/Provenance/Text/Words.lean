set_option autoImplicit false

namespace Provenance.Text

/-- The 25 characters with the Unicode property `White_Space`. -/
def isBlank (c : Char) : Bool :=
  let n := c.toNat
  (0x9 ≤ n && n ≤ 0xd) || n == 0x20 || n == 0x85 || n == 0xa0 || n == 0x1680
    || (0x2000 ≤ n && n ≤ 0x200a) || n == 0x2028 || n == 0x2029 || n == 0x202f
    || n == 0x205f || n == 0x3000

end Provenance.Text

namespace Provenance.Text.Words

inductive Context where
  | bare
  | single
  | double

/-- A backslash within double quotes disappears only before these. -/
def isMeta (c : Char) : Bool :=
  c == '$' || c == '\x60' || c == '"' || c == '\\'

/-- The rest of a line: what it adds to the word under way, `none` if nothing, and the words that
follow. -/
structure Rest where
  word : Option (List Char)
  words : List (List Char)

namespace Rest

def done : Rest := ⟨none, []⟩

def extend (piece : List Char) (r : Rest) : Rest := ⟨some (piece ++ r.word.getD []), r.words⟩

def all (r : Rest) : List (List Char) := r.word.toList ++ r.words

def part (r : Rest) : Rest := ⟨none, r.all⟩

end Rest

/-- Reads the rest of a line. A backslash is never joined with a newline: outside quotes it stands
for itself there, within double quotes the quotation cannot go on. -/
def scan : Context → List Char → Option Rest
  | .bare, [] => some .done
  | .bare, ['\\'] => some (.extend ['\\'] .done)
  | .bare, '\\' :: c :: rest =>
    if c = '\n' then (scan .bare (c :: rest)).map (.extend ['\\'])
    else (scan .bare rest).map (.extend [c])
  | .bare, c :: rest =>
    if c = '\'' then (scan .single rest).map (.extend [])
    else if c = '"' then (scan .double rest).map (.extend [])
    else if isBlank c then (scan .bare rest).map .part
    else (scan .bare rest).map (.extend [c])
  | .single, [] => none
  | .single, c :: rest =>
    if c = '\'' then scan .bare rest else (scan .single rest).map (.extend [c])
  | .double, [] => none
  | .double, ['\\'] => none
  | .double, '\\' :: c :: rest =>
    if c = '\n' then none
    else (scan .double rest).map (.extend (if isMeta c then [c] else ['\\', c]))
  | .double, c :: rest =>
    if c = '"' then scan .bare rest else (scan .double rest).map (.extend [c])

def split (line : String) : Option (List String) :=
  (scan .bare line.toList).map fun r => r.all.map String.ofList

end Provenance.Text.Words
