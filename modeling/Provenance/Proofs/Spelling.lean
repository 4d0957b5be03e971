import Provenance.Json.Reader
import Provenance.Proofs.Decimals

/-!
The tokens of a written document. A text that is read from between two tokens spells some tokens, up
to the end of a word or number that the next character will settle; texts that are put together with
marks and white space spell their tokens together. So a document has the same tokens in its compact
and in its pretty form.
-/

set_option autoImplicit false

namespace Provenance

namespace Json

open Decimal

theorem Token.ofMagnitude?_natText (isNegative : Bool) (spelling : List Char) {n : Nat}
    (h : isNegative = true → 0 < n) :
    ofMagnitude? isNegative spelling (natText n) =
      some (.integer (if isNegative then -n else n)) := by
  have hne : natText n ≠ [] := Nat.toDigits_ne_nil
  have hfront : ¬ ((natText n).head? = some '0' ∧ 1 < (natText n).length) := by
    rintro ⟨hhead, hlength⟩
    cases n with
    | zero => simp [natText] at hlength
    | succ n => exact head?_natText (Nat.succ_pos n) hhead
  cases isNegative with
  | false =>
    simp [ofMagnitude?, takeWhile_natText, dropWhile_natText, readNat?_natText, hne, hfront]
  | true =>
    have hzero : natText n ≠ ['0'] := by
      intro hzero
      exact head?_natText (h rfl) (by rw [hzero]; rfl)
    simp [ofMagnitude?, takeWhile_natText, dropWhile_natText, readNat?_natText, hne, hfront, hzero]

theorem Token.ofNumber?_intText (n : Int) : ofNumber? (intText n) = some (.integer n) := by
  cases n with
  | ofNat n =>
    have hplain := ofMagnitude?_natText false (natText n) (n := n) (by simp)
    unfold ofNumber?
    split
    · rename_i rest hminus
      have hdigit := isDigit_of_mem_natText (n := n) (c := '-') (by
        rw [show natText n = '-' :: rest from hminus]
        simp)
      exact absurd hdigit (by decide)
    · exact hplain
  | negSucc n => exact ofMagnitude?_natText true _ (by simp)

namespace Lexer

/-- The machine has read these tokens, the last one first. The end of a word or number may not have
come yet, but where it stands it could end. -/
inductive Ready : Lexer → List Token → Prop where
  | blank (prior : List Token) : Ready ⟨prior, .blank⟩ prior
  | word {letters : List Char} {t : Token} (prior : List Token)
      (h : Token.ofWord? letters.reverse = some t) : Ready ⟨prior, .word letters⟩ (t :: prior)
  | number {spelling : List Char} {t : Token} (prior : List Token)
      (h : Token.ofNumber? spelling.reverse = some t) :
      Ready ⟨prior, .number spelling⟩ (t :: prior)

theorem Ready.finish? {l : Lexer} {ts : List Token} (h : l.Ready ts) :
    l.finish? = some ts.reverse := by
  cases h with
  | blank => rfl
  | word prior h => simp [Lexer.finish?, h]
  | number prior h => simp [Lexer.finish?, h]

/-- A character that no word and no number has comes after the tokens. -/
theorem Ready.step? {l : Lexer} {ts : List Token} (h : l.Ready ts) {c : Char}
    (hlower : c.isLower = false) (hnumeric : isNumeric c = false) : l.step? c = open? ts c := by
  cases h with
  | blank => rfl
  | word prior h => simp [Lexer.step?, hlower, h]
  | number prior h => simp [Lexer.step?, hnumeric, h]

theorem open?_mark {c : Char} {t : Token} (h : Token.ofPunctuation? c = some t)
    (prior : List Token) :
    open? prior c = some ⟨t :: prior, .blank⟩ ∧ c.isLower = false ∧ isNumeric c = false := by
  unfold Token.ofPunctuation? at h
  iterate 6
    split at h
    · subst c
      cases h
      exact ⟨rfl, by decide, by decide⟩
  cases h

theorem open?_space {c : Char} (h : isSpace c = true) (prior : List Token) :
    open? prior c = some ⟨prior, .blank⟩ ∧ c.isLower = false ∧ isNumeric c = false := by
  have hspace : open? prior c = some ⟨prior, .blank⟩ := by simp [open?, h]
  simp only [isSpace, Bool.or_eq_true, beq_iff_eq] at h
  rcases h with ((rfl | rfl) | rfl) | rfl <;> exact ⟨hspace, by decide, by decide⟩

theorem open?_number {c : Char} (h : c.isDigit = true ∨ c = '-') (prior : List Token) :
    open? prior c = some ⟨prior, .number [c]⟩ := by
  have hspace : isSpace c = false := by
    rcases h with hdigit | rfl
    · by_contra hspace
      simp only [isSpace, Bool.not_eq_false, Bool.or_eq_true, beq_iff_eq] at hspace
      rcases hspace with ((rfl | rfl) | rfl) | rfl <;> exact absurd hdigit (by decide)
    · decide
  have hmark : c ≠ '"' := by
    rintro rfl
    exact absurd h (by decide)
  simp [open?, hspace, hmark, h]

theorem foldlM_digits (prior : List Token) (seen : List Char) {digits : List Char}
    (h : ∀ d ∈ digits, d.isDigit = true) :
    digits.foldlM Lexer.step? ⟨prior, .number seen⟩ =
      some ⟨prior, .number (digits.reverse ++ seen)⟩ := by
  induction digits generalizing seen with
  | nil => rfl
  | cons d digits ih =>
    have hd : isNumeric d = true := by simp [isNumeric, h d (by simp)]
    simp [Lexer.step?, hd, ih _ fun e he => h e (by simp [he])]

def Spells (text : List Char) (ts : List Token) : Prop :=
  ∀ prior, ∃ l, text.foldlM Lexer.step? ⟨prior, .blank⟩ = some l ∧ l.Ready (ts.reverse ++ prior)

namespace Spells

theorem nil : Spells [] [] := fun prior => ⟨_, rfl, .blank prior⟩

/-- A character that opens nothing parts two texts, whether or not it is a token itself. -/
theorem parted {text text' : List Char} {ts ts' : List Token} (h : Spells text ts) {c : Char}
    (own : List Token)
    (hc : ∀ prior, open? prior c = some ⟨own.reverse ++ prior, .blank⟩ ∧ c.isLower = false ∧
      isNumeric c = false) (h' : Spells text' ts') :
    Spells (text ++ c :: text') (ts ++ (own ++ ts')) := by
  intro prior
  obtain ⟨l, hrun, hready⟩ := h prior
  obtain ⟨hopen, hlower, hnumeric⟩ := hc (ts.reverse ++ prior)
  obtain ⟨l', hrun', hready'⟩ := h' (own.reverse ++ (ts.reverse ++ prior))
  refine ⟨l', ?_, by simpa using hready'⟩
  rw [List.foldlM_append, hrun]
  simp only [Option.bind_eq_bind, Option.bind_some, List.foldlM_cons,
    hready.step? hlower hnumeric, hopen, hrun']

theorem mark {text text' : List Char} {ts ts' : List Token} (h : Spells text ts) {c : Char}
    {t : Token} (hc : Token.ofPunctuation? c = some t) (h' : Spells text' ts') :
    Spells (text ++ c :: text') (ts ++ t :: ts') :=
  h.parted [t] (open?_mark hc) h'

theorem space {text text' : List Char} {ts ts' : List Token} (h : Spells text ts) {c : Char}
    (hc : isSpace c = true) (h' : Spells text' ts') :
    Spells (text ++ c :: text') (ts ++ ts') :=
  h.parted [] (open?_space hc) h'

theorem spaces {text : List Char} {ts : List Token} (h : Spells text ts) (n : Nat) :
    Spells (List.replicate n ' ' ++ text) ts := by
  induction n with
  | zero => exact h
  | succ n ih => exact nil.space rfl ih

theorem newline {text text' : List Char} {ts ts' : List Token} (h : Spells text ts) (level : Nat)
    (h' : Spells text' ts') : Spells (text ++ (newline level ++ text')) (ts ++ ts') :=
  h.space rfl (h'.spaces (2 * level))

theorem tokens? {text : List Char} {ts : List Token} (h : Spells text ts) :
    Json.tokens? text = some ts := by
  obtain ⟨l, hrun, hready⟩ := h []
  simp only [Json.tokens?, start, hrun, Option.bind_some, hready.finish?]
  simp

end Spells

theorem foldlM_hex4 (prior : List Token) (p : Unfinished) {n : Nat} (h : n < 0x10000) :
    (Text.hex4 n).foldlM Lexer.step? ⟨prior, .unit p 0 0⟩ =
      some ⟨prior, .text (p.pushUnit n)⟩ := by
  have hvalue : 16 * (16 * (16 * (n / 4096 % 16) + n / 256 % 16) + n / 16 % 16) + n % 16 = n := by
    omega
  have hdigit (m : Nat) : Text.hexValue? (Nat.digitChar (m % 16)) = some (m % 16) :=
    Text.hexValue?_digitChar _ (Nat.mod_lt m (by decide))
  simp [Text.hex4, Lexer.step?, hdigit, hvalue]

theorem foldlM_escape (prior : List Token) (cs : List Char) (c : Char) :
    (escape c).foldlM Lexer.step? ⟨prior, .text ⟨some cs, none⟩⟩ =
      some ⟨prior, .text ⟨some (c :: cs), none⟩⟩ := by
  unfold escape
  -- the seven characters that a letter names
  iterate 7
    split
    · subst c
      rfl
  split
  next hcontrol =>
    have hhigh : Text.Units.isHigh c.toNat = false := by simp [Text.Units.isHigh]; omega
    have hlow : Text.Units.isLow c.toNat = false := by simp [Text.Units.isLow]; omega
    have hunit : Unfinished.pushUnit ⟨some cs, none⟩ c.toNat = ⟨some (c :: cs), none⟩ := by
      simp [Unfinished.pushUnit, hhigh, hlow]
    rw [← hunit]
    exact foldlM_hex4 prior ⟨some cs, none⟩ (by omega)
  next hmark hbackslash _ _ _ _ _ hcontrol =>
    simp [Lexer.step?, Unfinished.push, hmark, hbackslash, hcontrol]

theorem foldlM_flatMap_escape (prior : List Token) (text cs : List Char) :
    (text.flatMap escape).foldlM Lexer.step? ⟨prior, .text ⟨some cs, none⟩⟩ =
      some ⟨prior, .text ⟨some (text.reverse ++ cs), none⟩⟩ := by
  induction text generalizing cs with
  | nil => rfl
  | cons c text ih =>
    rw [List.flatMap_cons, List.foldlM_append, foldlM_escape]
    simp [ih]

namespace Spells

theorem literalText (literal : Literal) : Spells (literalText literal) [.string literal] := by
  cases literal with
  | none => exact fun prior => ⟨_, rfl, .blank _⟩
  | some text =>
    intro prior
    refine ⟨⟨.string (some text) :: prior, .blank⟩, ?_, .blank _⟩
    have hopen : Lexer.step? ⟨prior, .blank⟩ '"' = some ⟨prior, .text ⟨some [], none⟩⟩ := rfl
    have hbody := foldlM_flatMap_escape prior text.toList []
    simp only [Json.literalText, List.cons_append, List.foldlM_cons, hopen, Option.bind_eq_bind,
      Option.bind_some, List.foldlM_append, hbody]
    simp [Lexer.step?, emit, Unfinished.literal]

theorem word {letters : List Char} {t : Token} (h : Token.ofWord? letters = some t) :
    Spells letters [t] := by
  unfold Token.ofWord? at h
  iterate 3
    split at h
    · subst letters
      cases h
      exact fun prior => ⟨_, rfl, .word prior rfl⟩
  cases h

theorem number {c : Char} {digits : List Char} {t : Token}
    (h : Token.ofNumber? (c :: digits) = some t) (hfirst : c.isDigit = true ∨ c = '-')
    (hdigits : ∀ d ∈ digits, d.isDigit = true) : Spells (c :: digits) [t] := by
  intro prior
  have hopen : Lexer.step? ⟨prior, .blank⟩ c = some ⟨prior, .number [c]⟩ :=
    open?_number hfirst prior
  refine ⟨⟨prior, .number (digits.reverse ++ [c])⟩, ?_, .number prior (by simpa using h)⟩
  simp [hopen, foldlM_digits prior [c] hdigits]

theorem intText (n : Int) : Spells (Decimal.intText n) [.integer n] := by
  have htoken := Token.ofNumber?_intText n
  cases n with
  | ofNat n =>
    obtain ⟨c, digits, hc⟩ := List.exists_cons_of_ne_nil (Nat.toDigits_ne_nil (n := n) (b := 10))
    have hall : ∀ d ∈ c :: digits, d.isDigit = true := fun d hd =>
      isDigit_of_mem_natText (n := n) (by simpa [natText, hc] using hd)
    have htext : Decimal.intText (.ofNat n) = c :: digits := hc
    rw [htext] at htoken ⊢
    exact number htoken (.inl (hall c (by simp))) fun d hd => hall d (by simp [hd])
  | negSucc n => exact number htoken (.inr rfl) fun d hd => isDigit_of_mem_natText hd

theorem commas {α : Type} {text : α → List Char} {ts : α → List Token} {items : List α}
    (h : ∀ a ∈ items, Spells (text a) (ts a)) :
    Spells ([','].intercalate (items.map text)) ([.comma].intercalate (items.map ts)) := by
  induction items with
  | nil => exact nil
  | cons a items ih =>
    have ha : Spells (text a) (ts a) := h a (by simp)
    cases items with
    | nil => simpa using ha
    | cons b items => simpa using ha.mark rfl (ih fun c hc => h c (List.mem_cons_of_mem a hc))

end Spells

end Lexer

mutual

def tokens : Json → List Token
  | .null => [.null]
  | .bool b => [.bool b]
  | .integer n => [.integer n]
  | .decimal spelling => [.decimal spelling]
  | .string literal => [.string literal]
  | .array items => .openArray :: [.comma].intercalate (itemTokens items) ++ [.closeArray]
  | .object members => .openObject :: [.comma].intercalate (memberTokens members) ++ [.closeObject]

def itemTokens : List Json → List (List Token)
  | [] => []
  | item :: rest => tokens item :: itemTokens rest

def memberTokens : List (Literal × Json) → List (List Token)
  | [] => []
  | (name, value) :: rest => (.string name :: .colon :: tokens value) :: memberTokens rest

end

inductive Whole : Json → Prop where
  | null : Whole .null
  | bool (b : Bool) : Whole (.bool b)
  | integer (n : Int) : Whole (.integer n)
  | string (literal : Literal) : Whole (.string literal)
  | array {items : List Json} (h : ∀ item ∈ items, Whole item) : Whole (.array items)
  | object {members : List (Literal × Json)} (h : ∀ m ∈ members, Whole m.2) :
      Whole (.object members)

theorem itemTokens_eq (items : List Json) : itemTokens items = items.map tokens := by
  induction items with
  | nil => rfl
  | cons item items ih => simp [itemTokens, ih]

theorem memberTokens_eq (members : List (Literal × Json)) :
    memberTokens members = members.map fun m => .string m.1 :: .colon :: tokens m.2 := by
  induction members with
  | nil => rfl
  | cons m members ih => simp [memberTokens, ih]

-- A container is written item by item, with commas between them.

theorem compactItems_eq :
    ∀ items, compactItems items = [','].intercalate (items.map compactText)
  | [] => rfl
  | [_] => by simp [compactItems]
  | _ :: next :: rest => by simp [compactItems, compactItems_eq (next :: rest)]

theorem compactMembers_eq :
    ∀ members, compactMembers members =
      [','].intercalate (members.map fun m => literalText m.1 ++ ':' :: compactText m.2)
  | [] => rfl
  | [_] => by simp [compactMembers]
  | _ :: next :: rest => by simp [compactMembers, compactMembers_eq (next :: rest)]

theorem prettyItems_eq (level : Nat) :
    ∀ items, prettyItems level items =
      [','].intercalate (items.map fun j => newline level ++ prettyText level j)
  | [] => rfl
  | [_] => by simp [prettyItems]
  | _ :: next :: rest => by simp [prettyItems, prettyItems_eq level (next :: rest)]

theorem prettyMembers_eq (level : Nat) :
    ∀ members, prettyMembers level members =
      [','].intercalate (members.map fun m =>
        newline level ++ (literalText m.1 ++ ':' :: ' ' :: prettyText level m.2))
  | [] => rfl
  | [_] => by simp [prettyMembers]
  | _ :: next :: rest => by simp [prettyMembers, prettyMembers_eq level (next :: rest)]

open Lexer

theorem spells_compactText {j : Json} (h : j.Whole) : Spells j.compactText j.tokens := by
  induction h with
  | null => exact .word rfl
  | bool b => cases b <;> exact .word rfl
  | integer n => exact .intText n
  | string literal => exact .literalText literal
  | array _ ih =>
    have hitems := Spells.commas ih
    rw [← compactItems_eq, ← itemTokens_eq] at hitems
    exact Spells.nil.mark rfl (hitems.mark rfl .nil)
  | object _ ih =>
    have hmembers :=
      Spells.commas fun m hm => (Spells.literalText m.1).mark (c := ':') rfl (ih m hm)
    rw [← compactMembers_eq] at hmembers
    have htokens := Spells.nil.mark (c := '\x7b') rfl (hmembers.mark (c := '\x7d') rfl .nil)
    simpa [compactText, tokens, memberTokens_eq] using htokens

theorem spells_prettyText {j : Json} (h : j.Whole) (level : Nat) :
    Spells (j.prettyText level) j.tokens := by
  induction h generalizing level with
  | null => exact .word rfl
  | bool b => cases b <;> exact .word rfl
  | integer n => exact .intText n
  | string literal => exact .literalText literal
  | @array items _ ih =>
    cases items with
    | nil => exact Spells.nil.mark rfl (Spells.nil.mark rfl .nil)
    | cons item items =>
      have hitems := Spells.commas fun j hj => Spells.nil.newline (level + 1) (ih j hj (level + 1))
      have htokens := Spells.nil.mark (c := '[') rfl
        ((hitems.newline level .nil).mark (c := ']') rfl .nil)
      simpa [prettyText, prettyItems_eq, tokens, itemTokens_eq] using htokens
  | @object members _ ih =>
    cases members with
    | nil => exact Spells.nil.mark rfl (Spells.nil.mark rfl .nil)
    | cons m members =>
      have hmembers := Spells.commas fun m hm => Spells.nil.newline (level + 1)
        ((Spells.literalText m.1).mark (c := ':') rfl
          (Spells.nil.space (c := ' ') rfl (ih m hm (level + 1))))
      have htokens := Spells.nil.mark (c := '\x7b') rfl
        ((hmembers.newline level .nil).mark (c := '\x7d') rfl .nil)
      simpa [prettyText, prettyMembers_eq, tokens, memberTokens_eq] using htokens

end Json

end Provenance
