import Mathlib.Tactic.SplitIfs
import Provenance.SymbolicValue

/-!
Reading quoted text. A reader that undoes the escapes finds the end of a quoted text wherever it
stands, whatever follows it, so two texts that are written alike are the same. The arguments of a
call that are all quoted can be told apart for this reason, although commas and parentheses may
stand in them.
-/

set_option autoImplicit false

namespace Provenance.Text.Quoted

def named? (mark letter : Char) : Option Char :=
  if letter = '\\' then some '\\'
  else if letter = 'n' then some '\n'
  else if letter = 't' then some '\t'
  else if letter = 'r' then some '\r'
  else if letter = 'b' then some '\x08'
  else if letter = 'f' then some '\x0c'
  else if letter = mark then some mark
  else none

def unit? (a b c d : Char) : Option Char := do
  let n := 16 * (16 * (16 * (← hexValue? a) + (← hexValue? b)) + (← hexValue? c)) + (← hexValue? d)
  if n.isValidChar then some (Char.ofNat n) else none

def follow (c : Char) (found : List Char × List Char) : List Char × List Char :=
  (c :: found.1, found.2)

/-- The text up to the closing mark, and what is left behind the mark. -/
def readBody? (mark : Char) : List Char → Option (List Char × List Char)
  | [] => none
  | '\\' :: 'u' :: a :: b :: c :: d :: rest =>
    (unit? a b c d).bind fun e => (readBody? mark rest).map (follow e)
  | '\\' :: letter :: rest =>
    (named? mark letter).bind fun e => (readBody? mark rest).map (follow e)
  | c :: rest => if c = mark then some ([], rest) else (readBody? mark rest).map (follow c)

def read? (mark : Char) (text : String) : Option (String × String) :=
  match text.toList with
  | [] => none
  | c :: rest =>
    if c = mark then
      (readBody? mark rest).map fun (body, left) => (String.ofList body, String.ofList left)
    else none

theorem unit?_hex4 {c : Char} (h : c.toNat < 0x10000) :
    unit? (Nat.digitChar (c.toNat / 4096 % 16)) (Nat.digitChar (c.toNat / 256 % 16))
      (Nat.digitChar (c.toNat / 16 % 16)) (Nat.digitChar (c.toNat % 16)) = some c := by
  have hvalue : 16 * (16 * (16 * (c.toNat / 4096 % 16) + c.toNat / 256 % 16) +
      c.toNat / 16 % 16) + c.toNat % 16 = c.toNat := by
    omega
  have hdigit (m : Nat) : hexValue? (Nat.digitChar (m % 16)) = some (m % 16) :=
    hexValue?_digitChar _ (Nat.mod_lt m (by decide))
  have hvalid : c.toNat.isValidChar := c.valid
  simp [unit?, hdigit, hvalue, hvalid, Char.ofNat_toNat]

section

variable {mark : Char} (hmark : mark = '\'' ∨ mark = '"')

include hmark

theorem escape_cases (c : Char) :
    (∃ letter, escape mark c = ['\\', letter] ∧ named? mark letter = some c ∧ letter ≠ 'u' ∧
      isControl letter = false) ∨
    (escape mark c = '\\' :: 'u' :: hex4 c.toNat ∧ c.toNat < 0x10000) ∨
    (escape mark c = [c] ∧ c ≠ '\\' ∧ c ≠ mark ∧ isControl c = false) := by
  unfold escape
  split_ifs with hslash hline htab hreturn hback hform hsame hcontrol
  · exact Or.inl ⟨'\\', rfl, by simp [named?, hslash], by decide, by decide⟩
  · exact Or.inl ⟨'n', rfl, by simp [named?, hline], by decide, by decide⟩
  · exact Or.inl ⟨'t', rfl, by simp [named?, htab], by decide, by decide⟩
  · exact Or.inl ⟨'r', rfl, by simp [named?, hreturn], by decide, by decide⟩
  · exact Or.inl ⟨'b', rfl, by simp [named?, hback], by decide, by decide⟩
  · exact Or.inl ⟨'f', rfl, by simp [named?, hform], by decide, by decide⟩
  · subst hsame
    rcases hmark with rfl | rfl
    · exact Or.inl ⟨'\'', rfl, by decide, by decide, by decide⟩
    · exact Or.inl ⟨'"', rfl, by decide, by decide, by decide⟩
  · refine Or.inr (Or.inl ⟨rfl, ?_⟩)
    simp [isControl] at hcontrol
    omega
  · exact Or.inr (Or.inr ⟨rfl, hslash, hsame, by simpa using hcontrol⟩)

theorem readBody?_escape (c : Char) (rest : List Char) :
    readBody? mark (escape mark c ++ rest) = (readBody? mark rest).map (follow c) := by
  rcases escape_cases hmark c with ⟨letter, hescape, hnamed, hletter, _⟩ | ⟨hescape, hsmall⟩ |
    ⟨hescape, hslash, hne, _⟩
  · simp [hescape, readBody?, hnamed, hletter]
  · simp [hescape, hex4, readBody?, unit?_hex4 hsmall]
  · simp [hescape, readBody?, hslash, hne]

theorem readBody?_mark (rest : List Char) : readBody? mark (mark :: rest) = some ([], rest) := by
  rcases hmark with rfl | rfl <;> simp [readBody?]

theorem readBody?_body (text rest : List Char) :
    readBody? mark (text.flatMap (escape mark) ++ mark :: rest) = some (text, rest) := by
  induction text with
  | nil => exact readBody?_mark hmark rest
  | cons c text ih =>
    rw [List.flatMap_cons, List.append_assoc, readBody?_escape hmark, ih]
    rfl

theorem read?_quote_append (text rest : String) :
    read? mark (quote mark text ++ rest) = some (text, rest) := by
  have hbody := readBody?_body hmark text.toList rest.toList
  simp [read?, quote, encode, hbody]

theorem quote_append_inj {s t r r' : String} (h : quote mark s ++ r = quote mark t ++ r') :
    s = t ∧ r = r' := by
  have hread := congrArg (read? mark) h
  rw [read?_quote_append hmark, read?_quote_append hmark] at hread
  exact Prod.mk.inj (Option.some.inj hread)

theorem isControl_of_mem_escape {c d : Char} (h : d ∈ escape mark c) : isControl d = false := by
  have hslash : isControl '\\' = false := by decide
  have hu : isControl 'u' = false := by decide
  have hdigit : ∀ n, n < 16 → isControl (Nat.digitChar n) = false := by decide
  have hmod (m : Nat) : isControl (Nat.digitChar (m % 16)) = false :=
    hdigit _ (Nat.mod_lt m (by decide))
  rcases escape_cases hmark c with ⟨letter, hescape, _, _, hletter⟩ | ⟨hescape, _⟩ |
    ⟨hescape, _, _, hplain⟩
  · simp only [hescape, List.mem_cons, List.not_mem_nil, or_false] at h
    rcases h with rfl | rfl
    · exact hslash
    · exact hletter
  · simp only [hescape, hex4, List.mem_cons, List.not_mem_nil, or_false] at h
    rcases h with rfl | rfl | rfl | rfl | rfl | rfl
    · exact hslash
    · exact hu
    all_goals exact hmod _
  · simp only [hescape, List.mem_singleton] at h
    exact h ▸ hplain

theorem isControl_of_mem_quote {text : String} {d : Char} (h : d ∈ (quote mark text).toList) :
    isControl d = false := by
  have hclosed : isControl mark = false := by
    rcases hmark with rfl | rfl <;> decide
  simp only [quote, encode, String.toList_ofList, List.cons_append, List.mem_cons, List.mem_append,
    List.mem_flatMap, List.not_mem_nil, or_false] at h
  rcases h with rfl | ⟨c, _, hd⟩ | rfl
  · exact hclosed
  · exact isControl_of_mem_escape hmark hd
  · exact hclosed

end

def following : List String → String
  | [] => ""
  | text :: texts => ", " ++ quote '"' text ++ following texts

theorem intercalate_quote (text : String) (texts : List String) :
    ", ".intercalate ((text :: texts).map (quote '"')) = quote '"' text ++ following texts := by
  induction texts generalizing text with
  | nil => simp [following]
  | cons next texts ih =>
    rw [List.map_cons, List.map_cons, String.intercalate_cons_cons, ← List.map_cons, ih, following]
    simp only [String.append_assoc]

theorem following_append_inj {xs ys : List String} {r r' : String}
    (h : following xs ++ (")" ++ r) = following ys ++ (")" ++ r')) : xs = ys ∧ r = r' := by
  have hcomma (s t : String) : ")" ++ s ≠ ", " ++ t := by
    intro e
    have hlists := congrArg String.toList e
    simp at hlists
  induction xs generalizing ys with
  | nil =>
    cases ys with
    | nil => simpa [following] using h
    | cons y ys =>
      simp only [following, String.empty_append, String.append_assoc] at h
      exact absurd h (hcomma _ _)
  | cons x xs ih =>
    cases ys with
    | nil =>
      simp only [following, String.empty_append, String.append_assoc] at h
      exact absurd h.symm (hcomma _ _)
    | cons y ys =>
      simp only [following, String.append_assoc, String.append_right_inj] at h
      obtain ⟨rfl, hrest⟩ := quote_append_inj (Or.inr rfl) h
      obtain ⟨rfl, hr⟩ := ih hrest
      exact ⟨rfl, hr⟩

/-- A list of quoted texts can be read up to the parenthesis behind it. -/
theorem intercalate_quote_append_inj {xs ys : List String} {r r' : String}
    (h : ", ".intercalate (xs.map (quote '"')) ++ (")" ++ r) =
      ", ".intercalate (ys.map (quote '"')) ++ (")" ++ r')) : xs = ys ∧ r = r' := by
  have hopen (s t u : String) : ")" ++ s ≠ quote '"' t ++ u := by
    intro e
    have hlists := congrArg String.toList e
    simp [quote, encode] at hlists
  cases xs with
  | nil =>
    cases ys with
    | nil => simpa using h
    | cons y ys =>
      rw [intercalate_quote, String.append_assoc] at h
      simp only [List.map_nil, String.intercalate_nil, String.empty_append] at h
      exact absurd h (hopen _ _ _)
  | cons x xs =>
    cases ys with
    | nil =>
      rw [intercalate_quote, String.append_assoc] at h
      simp only [List.map_nil, String.intercalate_nil, String.empty_append] at h
      exact absurd h.symm (hopen _ _ _)
    | cons y ys =>
      rw [intercalate_quote, intercalate_quote, String.append_assoc, String.append_assoc] at h
      obtain ⟨rfl, hrest⟩ := quote_append_inj (Or.inr rfl) h
      obtain ⟨rfl, hr⟩ := following_append_inj hrest
      exact ⟨rfl, hr⟩

end Provenance.Text.Quoted

namespace Provenance

open Text.Quoted

def SymbolicValue.written (v : SymbolicValue) (o : Operand) : String :=
  o.textAmong (entryTexts v.snapshot.entries)

/-- The value describes a call or a construction whose arguments are all written as quoted texts.
The head is what stands before the arguments. -/
inductive SymbolicValue.QuotedCall (v : SymbolicValue) : String → List String → Prop where
  | call {method : Method} {receiver : Option Operand} {arguments : List Operand}
      {texts : List String} (hcall : v.expression = .call method receiver arguments)
      (hquoted : arguments.map v.written = texts.map (quote '"')) :
      v.QuotedCall (receiver.elim (Method.simpleName method.className) v.written ++ "." ++
        method.name) texts
  | object {className : String} {arguments : List Operand} {texts : List String}
      (hobject : v.expression = .object className arguments)
      (hquoted : arguments.map v.written = texts.map (quote '"')) :
      v.QuotedCall ("new " ++ Method.simpleName className) texts

theorem SymbolicValue.QuotedCall.text_eq {v : SymbolicValue} {head : String} {texts : List String}
    (h : v.QuotedCall head texts) :
    v.text = head ++ "(" ++ ", ".intercalate (texts.map (quote '"')) ++ ")" := by
  have hwritten : v.text = v.expression.textWith v.written := rfl
  cases h with
  | @call method receiver arguments _ hcall hquoted =>
    rw [hwritten, hcall, ← hquoted]
    cases receiver <;> rfl
  | object hobject hquoted =>
    rw [hwritten, hobject, ← hquoted]
    rfl

def SymbolicValue.literalCall (method : Method) (texts : List String) : SymbolicValue :=
  .leaf (.call method none (texts.map fun text => .literal (.str text)))

theorem SymbolicValue.quotedCall_literalCall (method : Method) (texts : List String) :
    (literalCall method texts).QuotedCall
      (Method.simpleName method.className ++ "." ++ method.name) texts := by
  have hwritten : (literalCall method texts).written ∘ (fun text => .literal (.str text)) =
      quote '"' := rfl
  refine @QuotedCall.call _ _ none _ _ rfl ?_
  rw [List.map_map, hwritten]

/-- Quoted texts are read back from what is written, wherever they end, and show no control
character. So different arguments of a call, and different strings and characters, are written
differently. -/
theorem quoted_text_unambiguous (mark : Char) (hmark : mark = '\'' ∨ mark = '"')
    (s t r r' : String) :
    (quote mark s ++ r = quote mark t ++ r' → s = t ∧ r = r') ∧
    (∀ c ∈ (quote mark s).toList, isControl c = false) ∧
    read? mark (quote mark s ++ r) = some (s, r) ∧
    (∀ (v v' : SymbolicValue) (head : String) (xs ys : List String), v.QuotedCall head xs →
      v'.QuotedCall head ys → v.text ++ r = v'.text ++ r' → xs = ys ∧ r = r') ∧
    ((Constant.str s).text = (Constant.str t).text → s = t) ∧
    ∀ c d : Char, (Constant.char c).text = (Constant.char d).text → c = d := by
  have hinjective {m : Char} (hm : m = '\'' ∨ m = '"') {x y : String}
      (h : quote m x = quote m y) : x = y :=
    (quote_append_inj hm (congrArg (· ++ "") h)).1
  refine ⟨quote_append_inj hmark, fun c => isControl_of_mem_quote hmark,
    read?_quote_append hmark s r, ?_, hinjective (Or.inr rfl), ?_⟩
  · intro v v' head xs ys hv hv' h
    rw [hv.text_eq, hv'.text_eq] at h
    simp only [String.append_assoc, String.append_right_inj] at h
    exact intercalate_quote_append_inj h
  · intro c d h
    have hsingle := hinjective (Or.inl rfl) h
    exact List.singleton_inj.1 (by simpa using congrArg String.toList hsingle)

/-- Two arguments are not taken for one that holds the marks and the comma between them, and an
escape that is part of the text is not undone. -/
theorem quoted_text_unambiguous_comma :
    ('"' = '\'' ∨ '"' = '"') ∧
    read? '"' (quote '"' "\\u0041\"" ++ "\"") = some ("\\u0041\"", "\"") ∧
    (SymbolicValue.literalCall ⟨"android.util.Log", "d", [], "int"⟩ ["a", "b"]).text ≠
      (SymbolicValue.literalCall ⟨"android.util.Log", "d", [], "int"⟩ ["a\", \"b"]).text := by
  obtain ⟨_, _, hread, hcalls, _⟩ :=
    quoted_text_unambiguous '"' (Or.inr rfl) "\\u0041\"" "" "\"" "\""
  refine ⟨Or.inr rfl, hread, fun htext => ?_⟩
  have hlists := hcalls _ _ _ _ _ (SymbolicValue.quotedCall_literalCall _ _)
    (SymbolicValue.quotedCall_literalCall _ _) (congrArg (· ++ "\"") htext)
  simp at hlists

end Provenance
