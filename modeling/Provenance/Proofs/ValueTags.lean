import Mathlib.Data.Set.Insert
import Mathlib.Data.Set.Lattice
import Provenance.Proofs.Distinct
import Provenance.Proofs.Store
import Provenance.Proofs.Table
import Provenance.Visit

set_option autoImplicit false

namespace Provenance

def valueTags (values : List SymbolicValue) : Set Tag := {t | ∃ v ∈ values, t ∈ v.tags}

theorem mem_valueTags {t : Tag} {values : List SymbolicValue} :
    t ∈ valueTags values ↔ ∃ v ∈ values, t ∈ v.tags := Iff.rfl

@[simp] theorem valueTags_nil : valueTags [] = ∅ := by
  ext t
  simp [mem_valueTags]

theorem valueTags_cons (v : SymbolicValue) (values : List SymbolicValue) :
    valueTags (v :: values) = {t | t ∈ v.tags} ∪ valueTags values := by
  ext t
  simp [mem_valueTags]

theorem valueTags_singleton (v : SymbolicValue) : valueTags [v] = {t | t ∈ v.tags} := by
  simp [valueTags_cons]

@[simp] theorem valueTags_leaf (e : Expression) : valueTags [SymbolicValue.leaf e] = ∅ := by
  ext t
  simp [mem_valueTags, SymbolicValue.leaf]

@[simp] theorem valueTags_constant (c : Constant) : valueTags [SymbolicValue.constant c] = ∅ :=
  valueTags_leaf _

theorem SymbolicValue.unknownFor_eq (o : Operand) :
    SymbolicValue.unknownFor o = .leaf (.unknown [o.text]) := rfl

@[simp] theorem valueTags_distinct (values : List SymbolicValue) :
    valueTags (SymbolicValue.distinct values) = valueTags values := by
  ext t
  exact SymbolicValue.tagged_distinct values

@[simp] theorem valueTags_collapse (limit : Nat) (o : Operand) (values : List SymbolicValue) :
    valueTags (Environment.collapse limit o values) = valueTags values := by
  by_cases h : limit < values.length
  · ext t
    simp [Environment.collapse_of_lt o h, mem_valueTags]
  · rw [Environment.collapse_of_le o (Nat.le_of_not_lt h)]

namespace Snapshot

theorem mem_tags [Enumeration] {s : Snapshot} {t : Tag} :
    t ∈ Snapshot.tags s ↔ ∃ e ∈ s.entries, t ∈ valueTags e.2 := by
  have hperm : ∀ e, e ∈ Enumeration.entries s ↔ e ∈ s.entries :=
    fun e => (Enumeration.perm s).mem_iff
  simp only [Snapshot.tags, TagSet.mem_unions, List.mem_map, List.mem_flatMap, hperm, mem_valueTags]
  constructor
  · rintro ⟨_, ⟨v, ⟨e, he, hv⟩, rfl⟩, ht⟩
    exact ⟨e, he, v, hv, ht⟩
  · rintro ⟨e, he, v, hv, ht⟩
    exact ⟨_, ⟨v, ⟨e, he, hv⟩, rfl⟩, ht⟩

theorem mem_tags_insert [Enumeration] {s : Snapshot} {o : Operand} {values : List SymbolicValue}
    {t : Tag} (h : t ∈ Snapshot.tags (s.insert o values)) :
    t ∈ valueTags values ∨ t ∈ Snapshot.tags s := by
  obtain ⟨e, he, ht⟩ := mem_tags.1 h
  rcases Table.mem_insert he with rfl | he
  · exact Or.inl ht
  · exact Or.inr (mem_tags.2 ⟨e, he, ht⟩)

theorem mem_tags_insert_self [Enumeration] (s : Snapshot) (o : Operand)
    {values : List SymbolicValue} {t : Tag} (h : t ∈ valueTags values) :
    t ∈ Snapshot.tags (s.insert o values) :=
  mem_tags.2 ⟨_, Table.self_mem_insert s o values, h⟩

theorem mem_tags_insert_of_ne [Enumeration] {s : Snapshot} {o : Operand}
    {values : List SymbolicValue} {e : Operand × List SymbolicValue} {t : Tag}
    (he : e ∈ s.entries) (hne : e.1 ≠ o) (h : t ∈ valueTags e.2) :
    t ∈ Snapshot.tags (s.insert o values) :=
  mem_tags.2 ⟨e, Table.mem_insert_of_ne he hne, h⟩

end Snapshot

namespace Environment

def tagsAt (env : Environment) (o : Operand) : Set Tag := {t | t ∈ env.tagsOf o}

/-- The tags of those operands that are not literals. -/
def tagsAmong (env : Environment) (operands : List Operand) : Set Tag :=
  {t | ∃ o ∈ operands, o.isLiteral = false ∧ t ∈ env.tagsOf o}

theorem mem_tagsAmong {env : Environment} {operands : List Operand} {t : Tag} :
    t ∈ env.tagsAmong operands ↔ ∃ o ∈ operands, o.isLiteral = false ∧ t ∈ env.tagsAt o := Iff.rfl

theorem tagsAt_eq (env : Environment) (o : Operand) :
    env.tagsAt o = valueTags ((env.resolve? o).getD []) := by
  ext t
  simp [tagsAt, tagsOf, mem_valueTags]

theorem tagsAt_of_resolve? {env : Environment} {o : Operand} {values : List SymbolicValue}
    (h : env.resolve? o = some values) : env.tagsAt o = valueTags values := by
  rw [tagsAt_eq, h, Option.getD_some]

theorem tagsOf_of_untagged {env : Environment} {o : Operand} (h : env.tagsAt o = ∅) :
    env.tagsOf o = .empty := by
  apply TagSet.ext
  apply List.eq_nil_iff_forall_not_mem.2
  intro t ht
  have hmem : t ∈ env.tagsAt o := ht
  simp [h] at hmem

theorem propagate_of_untagged {env : Environment} {o : Operand} (h : env.tagsAt o = ∅)
    (values : List SymbolicValue) : Recognizer.propagate env o values = values := by
  have hsame : ∀ v : SymbolicValue, v.addTags .empty = v := by
    rintro ⟨e, n, ts, s⟩
    rfl
  simp [Recognizer.propagate, tagsOf_of_untagged h, hsame]

@[simp] theorem tagsAmong_nil (env : Environment) : env.tagsAmong [] = ∅ := by
  ext t
  simp [mem_tagsAmong]

theorem tagsAmong_literal (env : Environment) {o : Operand} (h : o.isLiteral = true) :
    env.tagsAmong [o] = ∅ := by
  ext t
  simp [mem_tagsAmong, h]

theorem tagsAmong_singleton (env : Environment) {o : Operand} (h : o.isLiteral = false) :
    env.tagsAmong [o] = env.tagsAt o := by
  ext t
  simp [mem_tagsAmong, h]

theorem tagsAmong_singleton_subset (env : Environment) (o : Operand) :
    env.tagsAmong [o] ⊆ env.tagsAt o := by
  intro t ht
  obtain ⟨j, hj, _, ht⟩ := mem_tagsAmong.1 ht
  rwa [List.mem_singleton.1 hj] at ht

theorem resolveOperand?_of_not_literal (env : Environment) {o : Operand}
    (h : o.isLiteral = false) : env.resolveOperand? o = env.resolve? o := by
  cases o with
  | literal c => simp [Operand.isLiteral, Operand.literal?] at h
  | named name type => rfl
  | returnSlot => rfl

theorem resolveOperand?_of_literal (env : Environment) {o : Operand} (h : o.isLiteral = true) :
    ∃ c, env.resolveOperand? o = some [.constant c] := by
  cases o with
  | literal c => exact ⟨c, rfl⟩
  | named name type => simp [Operand.isLiteral, Operand.literal?] at h
  | returnSlot => simp [Operand.isLiteral, Operand.literal?] at h

def held? (env : Environment) (o : Operand) : Option (Operand × List SymbolicValue) :=
  if o.isLiteral then none else (env.resolve? o).map (o, ·)

theorem held?_eq_some_iff {env : Environment} {o : Operand} {e : Operand × List SymbolicValue} :
    env.held? o = some e ↔ e.1 = o ∧ o.isLiteral = false ∧ env.resolve? o = some e.2 := by
  obtain ⟨j, values⟩ := e
  cases hl : o.isLiteral with
  | true => simp [held?, hl]
  | false =>
    simp only [held?, hl, Bool.false_eq_true, if_false, Option.map_eq_some_iff, Prod.mk.injEq]
    constructor
    · rintro ⟨vs, hr, rfl, rfl⟩
      exact ⟨rfl, trivial, hr⟩
    · rintro ⟨rfl, _, hr⟩
      exact ⟨values, hr, rfl, rfl⟩

theorem capture_eq (env : Environment) (operands : List Operand) :
    env.capture operands =
      (operands.filterMap env.held?).foldl (fun s e => s.insert e.1 e.2) Table.empty := by
  rw [List.foldl_filterMap]
  unfold capture
  congr 1
  funext s o
  cases hl : o.isLiteral with
  | true => simp [held?, hl]
  | false => cases hr : env.resolve? o <;> simp [held?, hl, hr]

/-- A snapshot of operands holds exactly what those of them that are not literals resolve to. An
operand that is named twice is taken down twice, with the same values. -/
theorem mem_capture {env : Environment} {operands : List Operand}
    {e : Operand × List SymbolicValue} :
    e ∈ (env.capture operands).entries ↔
      e.1 ∈ operands ∧ e.1.isLiteral = false ∧ env.resolve? e.1 = some e.2 := by
  have hheld : ∀ f ∈ operands.filterMap env.held?, env.resolve? f.1 = some f.2 := by
    intro f hf
    obtain ⟨o, _, ho⟩ := List.mem_filterMap.1 hf
    obtain ⟨rfl, _, hr⟩ := held?_eq_some_iff.1 ho
    exact hr
  rw [capture_eq, Table.mem_foldl_insert hheld (by simp [Table.empty])]
  simp only [Table.empty, List.not_mem_nil, false_or, List.mem_filterMap, held?_eq_some_iff]
  constructor
  · rintro ⟨o, ho, rfl, hrest⟩
    exact ⟨ho, hrest⟩
  · rintro ⟨ho, hrest⟩
    exact ⟨e.1, ho, rfl, hrest⟩

theorem mem_tags_capture [Enumeration] {env : Environment} {operands : List Operand} {t : Tag} :
    t ∈ Snapshot.tags (env.capture operands) ↔ t ∈ env.tagsAmong operands := by
  rw [Snapshot.mem_tags, mem_tagsAmong]
  constructor
  · rintro ⟨e, he, ht⟩
    obtain ⟨ho, hl, hr⟩ := mem_capture.1 he
    exact ⟨e.1, ho, hl, by rwa [tagsAt_of_resolve? hr]⟩
  · rintro ⟨o, ho, hl, ht⟩
    cases hr : env.resolve? o with
    | none => simp [tagsAt_eq, hr] at ht
    | some values =>
      rw [tagsAt_of_resolve? hr] at ht
      exact ⟨(o, values), mem_capture.2 ⟨ho, hl, hr⟩, ht⟩

theorem valueTags_makeIn [Enumeration] (env : Environment) (e : Expression) :
    valueTags [SymbolicValue.makeIn env e] = env.tagsAmong e.operands := by
  ext t
  rw [valueTags_singleton]
  exact mem_tags_capture

theorem valueTags_describeIn [Enumeration] (env : Environment) (call : CallSite) :
    valueTags [call.describeIn env] = env.tagsAmong call.operands := by
  ext t
  rw [valueTags_singleton]
  exact mem_tags_capture

theorem valueTags_copied (env : Environment) (o : Operand) (e : Expression) :
    valueTags (Effect.copied env o (.leaf e)) = env.tagsAmong [o] := by
  unfold Effect.copied
  cases hl : o.isLiteral with
  | true =>
    obtain ⟨c, hc⟩ := env.resolveOperand?_of_literal hl
    rw [hc, tagsAmong_literal env hl]
    simp
  | false =>
    rw [resolveOperand?_of_not_literal env hl, tagsAmong_singleton env hl]
    cases hr : env.resolve? o with
    | none => simp [tagsAt_eq, hr]
    | some values => rw [tagsAt_of_resolve? hr, Option.getD_some]

theorem resolveOrUnknown_ne_nil (env : Environment) (o : Operand) :
    env.resolveOrUnknown o ≠ [] := by
  unfold resolveOrUnknown
  split <;> simp

theorem resolveOrUnknown_cases (env : Environment) (o : Operand) :
    env.resolveOrUnknown o = [.unknownFor o] ∨
      env.resolveOrUnknown o = Effect.copied env o (.unknownFor o) := by
  unfold resolveOrUnknown Effect.copied
  rcases env.resolveOperand? o with _ | _ | ⟨v, rest⟩
  · exact Or.inl rfl
  · exact Or.inl rfl
  · exact Or.inr rfl

theorem valueTags_resolveOrUnknown (env : Environment) (o : Operand) :
    valueTags (env.resolveOrUnknown o) = env.tagsAmong [o] := by
  rw [← valueTags_copied env o (.unknown [])]
  unfold resolveOrUnknown Effect.copied
  cases hr : env.resolveOperand? o with
  | none => simp [SymbolicValue.unknownFor_eq]
  | some values => cases values <;> simp [SymbolicValue.unknownFor_eq]

end Environment

end Provenance
