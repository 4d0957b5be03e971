import Mathlib.Data.List.Forall2
import Provenance.Proofs.Writes

set_option autoImplicit false

namespace Provenance

section

variable {α β : Type} {R : α → α → Prop} {S : β → β → Prop} {a a' : Option α}

theorem rel_cases (h : Option.Rel R a a') :
    (a = none ∧ a' = none) ∨ ∃ x x', a = some x ∧ a' = some x' ∧ R x x' := by
  cases h with
  | none => exact Or.inl ⟨rfl, rfl⟩
  | some h => exact Or.inr ⟨_, _, rfl, rfl, h⟩

theorem rel_bind (h : Option.Rel R a a') {f f' : α → Option β}
    (hf : ∀ x x', R x x' → Option.Rel S (f x) (f' x')) : Option.Rel S (a.bind f) (a'.bind f') := by
  cases h with
  | none => exact .none
  | some h => exact hf _ _ h

theorem rel_getD (h : Option.Rel R a a') {d d' : α} (hd : R d d') : R (a.getD d) (a'.getD d') := by
  cases h with
  | none => exact hd
  | some h => exact h

theorem rel_head? {l l' : List α} (h : List.Forall₂ R l l') : Option.Rel R l.head? l'.head? := by
  cases h with
  | nil => exact .none
  | cons h _ => exact .some h

theorem map_eq_of_forall₂ {l l' : List α} (h : List.Forall₂ R l l') {f : α → β}
    (hf : ∀ x x', R x x' → f x = f x') : l.map f = l'.map f := by
  induction h with
  | nil => rfl
  | cons h _ ih => rw [List.map_cons, List.map_cons, ih, hf _ _ h]

end

namespace Table

variable {κ α : Type}

def Related (R : α → α → Prop) (t t' : Table κ α) : Prop :=
  List.Forall₂ (fun e e' => e.1 = e'.1 ∧ R e.2 e'.2) t.entries t'.entries

variable {R : α → α → Prop} {t t' : Table κ α} [DecidableEq κ]

theorem Related.get? (h : Related R t t') (k : κ) : Option.Rel R (t.get? k) (t'.get? k) := by
  obtain ⟨entries⟩ := t
  obtain ⟨entries'⟩ := t'
  unfold Table.get?
  unfold Related at h
  dsimp only at h ⊢
  induction h with
  | nil => exact .none
  | @cons e e' rest rest' he _ ih =>
    obtain ⟨hkey, hvalue⟩ := he
    by_cases hk : k = e.1
    · have hk' : k = e'.1 := hk.trans hkey
      simpa [findEntry, ← hk, ← hk'] using Option.Rel.some hvalue
    · have hk' : ¬ k = e'.1 := fun h => hk (h.trans hkey.symm)
      simpa [findEntry, hk, hk'] using ih

theorem Related.insert [Ord κ] (h : Related R t t') (k : κ) {a a' : α} (ha : R a a') :
    Related R (t.insert k a) (t'.insert k a') := by
  obtain ⟨entries⟩ := t
  obtain ⟨entries'⟩ := t'
  unfold Related at h ⊢
  unfold Table.insert
  dsimp only at h ⊢
  induction h with
  | nil => exact .cons ⟨rfl, ha⟩ .nil
  | @cons e e' rest rest' he hrest ih =>
    obtain ⟨hkey, hvalue⟩ := he
    unfold insertEntry
    rw [← hkey]
    split
    · exact .cons ⟨rfl, ha⟩ hrest
    · split
      · exact .cons ⟨rfl, ha⟩ (.cons ⟨rfl, hvalue⟩ hrest)
      · exact .cons ⟨rfl, hvalue⟩ ih

end Table

/-- The same data flows the same way, with related lists of tags. -/
structure Flow.Related (R : List String → List String → Prop) (f f' : Flow) : Prop where
  method : f.method = f'.method
  callee : f.callee = f'.callee
  argument : f.argument = f'.argument
  tags : R f.tags f'.tags

theorem Effect.flowsInto_related {R : List String → List String → Prop} {env env' : Environment}
    (hempty : ∀ a, (env.tagsOf a).isEmpty = (env'.tagsOf a).isEmpty)
    (htags : ∀ a, R (env.tagsOf a).toList (env'.tagsOf a).toList) (caller : Method)
    (call : CallSite) :
    List.Forall₂ (Flow.Related R) (flowsInto env caller call) (flowsInto env' caller call) := by
  refine List.rel_filterMap (R := Eq) ?_ (List.forall₂_refl call.arguments)
  rintro a _ rfl
  dsimp only
  rw [hempty a]
  split
  · exact .none
  · exact .some ⟨rfl, rfl, rfl, htags a⟩

/-- A relation that each write keeps is kept by all of them. -/
theorem Visit.writeAll_related {R : Environment → Environment → Prop}
    {S : List SymbolicValue → List SymbolicValue → Prop} {condition : Option Condition}
    (hupdate : ∀ {env env' : Environment}, R env env' → ∀ (o : Operand) {values values'},
      S values values' → R (env.update o values condition) (env'.update o values' condition))
    {writes writes' : List (Operand × List SymbolicValue)}
    (hw : List.Forall₂ (fun w w' => w.1 = w'.1 ∧ S w.2 w'.2) writes writes')
    {env env' : Environment} (h : R env env') :
    R (writeAll env condition writes) (writeAll env' condition writes') := by
  induction hw generalizing env env' with
  | nil => exact h
  | @cons w w' rest rest' hw _ ih =>
    obtain ⟨htarget, hvalues⟩ := hw
    cases hl : w.1.isLiteral with
    | true =>
      rw [writeAll_literal env condition rest hl,
        writeAll_literal env' condition rest' (htarget ▸ hl)]
      exact ih h
    | false =>
      rw [writeAll_cons env condition rest hl, writeAll_cons env' condition rest' (htarget ▸ hl),
        ← htarget]
      exact ih (hupdate h w.1 hvalues)

end Provenance
