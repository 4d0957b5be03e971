import Provenance.Proofs.Spelling

set_option autoImplicit false

namespace Provenance.Json

open Lexer

namespace Reader

/-- Read where a value is due, the tokens deliver it. -/
def Delivers (ts : List Token) (j : Json) : Prop :=
  ∀ stack orEnd, ts.foldlM Reader.step? ⟨stack, .value orEnd⟩ = some (deliver stack j)

/-- The rest of an array: its items with commas between them and the closing bracket. -/
theorem foldlM_items {items : List Json} (h : ∀ item ∈ items, Delivers item.tokens item)
    (hne : items ≠ []) (stack : List Frame) (seen : List Json) (orEnd : Bool) :
    ([Token.comma].intercalate (itemTokens items) ++ [Token.closeArray]).foldlM Reader.step?
        ⟨.array seen :: stack, .value orEnd⟩ =
      some (deliver stack (.array (seen.reverse ++ items))) := by
  induction items generalizing seen orEnd with
  | nil => contradiction
  | cons item items ih =>
    have hitem := h item (by simp) (.array seen :: stack) orEnd
    cases items with
    | nil => simp [itemTokens, hitem, deliver, Reader.step?, continue?]
    | cons next items =>
      have hrest :=
        ih (fun j hj => h j (List.mem_cons_of_mem item hj)) (by simp) (item :: seen) false
      simpa [itemTokens, hitem, deliver, Reader.step?, continue?] using hrest

theorem foldlM_members {members : List (Literal × Json)}
    (h : ∀ m ∈ members, Delivers m.2.tokens m.2) (hne : members ≠ []) (stack : List Frame)
    (seen : List (Literal × Json)) (orEnd : Bool) :
    ([Token.comma].intercalate (memberTokens members) ++ [Token.closeObject]).foldlM Reader.step?
        ⟨stack, .name seen orEnd⟩ =
      some (deliver stack (.object (seen.reverse ++ members))) := by
  induction members generalizing seen orEnd with
  | nil => contradiction
  | cons m members ih =>
    have hm := h m (by simp) (.member seen m.1 :: stack) false
    cases members with
    | nil => simp [memberTokens, hm, deliver, Reader.step?, continue?]
    | cons next members =>
      have hrest := ih (fun n hn => h n (List.mem_cons_of_mem m hn)) (by simp) (m :: seen) false
      simpa [memberTokens, hm, deliver, Reader.step?, continue?] using hrest

theorem delivers_tokens {j : Json} (h : j.Whole) : Delivers j.tokens j := by
  induction h with
  | null => exact fun _ _ => rfl
  | bool b => exact fun _ _ => rfl
  | integer n => exact fun _ _ => rfl
  | string literal => exact fun _ _ => rfl
  | @array items _ ih =>
    intro stack orEnd
    by_cases hne : items = []
    · subst hne
      rfl
    · have hitems := foldlM_items ih hne stack [] true
      simpa [tokens, Reader.step?, begin?] using hitems
  | @object members _ ih =>
    intro stack orEnd
    by_cases hne : members = []
    · subst hne
      rfl
    · have hmembers := foldlM_members ih hne stack [] true
      simpa [tokens, Reader.step?, begin?] using hmembers

end Reader

theorem parse?_of_spells {text : List Char} {j : Json} (hj : j.Whole) (h : Spells text j.tokens) :
    parse? (String.ofList text) = some j := by
  have hrun := Reader.delivers_tokens hj [] false
  simp [parse?, ofTokens?, h.tokens?, Reader.start, hrun, Reader.deliver, Reader.finish?]

theorem parse?_compact {j : Json} (h : j.Whole) : parse? j.compact = some j :=
  parse?_of_spells h (spells_compactText h)

theorem parse?_pretty {j : Json} (h : j.Whole) : parse? j.pretty = some j :=
  parse?_of_spells h (spells_prettyText h 0)

end Provenance.Json
