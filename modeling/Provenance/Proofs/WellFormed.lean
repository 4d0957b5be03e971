import Provenance.Proofs.Distinct
import Provenance.Proofs.Store
import Provenance.Proofs.Table
import Provenance.Visit

/-!
The shape that every environment of a visit has. Histories belong to operands that can be written,
every entry of a history holds some values but not too many, no text twice, and the index by text
knows exactly the recorded operands. The last point is what makes the detour of a lookup safe.
-/

set_option autoImplicit false

namespace Provenance

/-- What may be written: some values, all with different texts. -/
structure Settled (values : List SymbolicValue) : Prop where
  nonempty : values ≠ []
  texts : (values.map SymbolicValue.text).Nodup

theorem Settled.singleton (v : SymbolicValue) : Settled [v] := ⟨by simp, by simp⟩

theorem Settled.distinct {values : List SymbolicValue} (h : values ≠ []) :
    Settled (SymbolicValue.distinct values) :=
  ⟨SymbolicValue.distinct_ne_nil h, SymbolicValue.nodup_texts_distinct values⟩

theorem History.exists_latest? {h : History} (hne : h.entries ≠ []) :
    ∃ values, h.latest? none = some values := by
  have hlast : h.entries.reverse ≠ [] := by simpa using hne
  obtain ⟨e, rest, he⟩ := List.exists_cons_of_ne_nil hlast
  exact ⟨e.2, by simp [latest?, he, isCoherent]⟩

namespace Environment

structure Proper (limit : Nat) (values : List SymbolicValue) : Prop where
  settled : Settled values
  bounded : values.length ≤ max 1 limit
  tags : ∀ v ∈ values, v.tags.toList.Nodup

structure WellFormed (limit : Nat) (env : Environment) : Prop where
  limit_eq : env.limit = limit
  notLiteral : ∀ o ∈ env.histories.keys, o.isLiteral = false
  written : ∀ e ∈ env.histories.entries, e.2.entries ≠ []
  -- Every entry counts here, not only the latest of its history.
  proper : ∀ e ∈ env.histories.entries, ∀ w ∈ e.2.entries, Proper limit w.2
  indexed : ∀ text, text ∈ env.byText.keys ↔ ∃ o ∈ env.histories.keys, o.text = text
  recorded : ∀ e ∈ env.byText.entries, e.2 ∈ env.histories.keys ∧ e.2.text = e.1

theorem Proper.collapse (limit : Nat) (o : Operand) {values : List SymbolicValue}
    (h : Settled values) : Proper limit (collapse limit o values) := by
  by_cases hlt : limit < values.length
  · rw [collapse_of_lt o hlt]
    exact ⟨Settled.singleton _, Nat.le_max_left 1 limit, fun v _ => v.tags.nodup⟩
  · have hle : values.length ≤ limit := Nat.le_of_not_lt hlt
    rw [collapse_of_le o hle]
    exact ⟨h, by omega, fun v _ => v.tags.nodup⟩

theorem wellFormed_new (limit : Nat) : WellFormed limit (new limit) where
  limit_eq := rfl
  notLiteral := by simp [new, Table.empty, Table.keys]
  written := by simp [new, Table.empty]
  proper := by simp [new, Table.empty]
  indexed := by simp [new, Table.empty, Table.keys]
  recorded := by simp [new, Table.empty]

theorem WellFormed.prior_proper {limit : Nat} {env : Environment} (h : WellFormed limit env)
    (o : Operand) :
    ∀ w ∈ ((env.histories.get? o).getD .empty).entries, Proper limit w.2 := by
  cases hg : env.histories.get? o with
  | none => simp [History.empty]
  | some prior =>
    have hmem := Table.mem_of_get? hg
    exact h.proper _ hmem

theorem WellFormed.update {limit : Nat} {env : Environment} (h : WellFormed limit env)
    {o : Operand} (ho : o.isLiteral = false) {values : List SymbolicValue} (hv : Settled values)
    (condition : Option Condition) : WellFormed limit (env.update o values condition) where
  limit_eq := h.limit_eq
  notLiteral := by
    intro j hj
    rcases Table.mem_keys_insert.1 hj with rfl | hj
    · exact ho
    · exact h.notLiteral j hj
  written := by
    intro e he
    rcases Table.mem_insert he with rfl | he
    · simp [History.record]
    · exact h.written e he
  proper := by
    intro e he
    rcases Table.mem_insert he with rfl | he
    · intro w hw
      rcases List.mem_append.1 hw with hw | hw
      · exact h.prior_proper o w hw
      · have hnew : w.2 = collapse env.limit o values := by
          rw [List.mem_singleton.1 hw]
        rw [hnew, h.limit_eq]
        exact Proper.collapse limit o hv
    · exact h.proper e he
  indexed := by
    intro text
    have hold := h.indexed text
    constructor
    · intro ht
      rcases Table.mem_keys_insert.1 ht with rfl | ht
      · exact ⟨o, Table.mem_keys_insert.2 (Or.inl rfl), rfl⟩
      · obtain ⟨j, hj, htext⟩ := hold.1 ht
        exact ⟨j, Table.mem_keys_insert.2 (Or.inr hj), htext⟩
    · rintro ⟨j, hj, rfl⟩
      rcases Table.mem_keys_insert.1 hj with rfl | hj
      · exact Table.mem_keys_insert.2 (Or.inl rfl)
      · exact Table.mem_keys_insert.2 (Or.inr (hold.2 ⟨j, hj, rfl⟩))
  recorded := by
    intro e he
    rcases Table.mem_insert he with rfl | he
    · exact ⟨Table.mem_keys_insert.2 (Or.inl rfl), rfl⟩
    · obtain ⟨hkey, htext⟩ := h.recorded e he
      exact ⟨Table.mem_keys_insert.2 (Or.inr hkey), htext⟩

theorem exists_mem_of_get? {env : Environment} {o : Operand} {history : History}
    (h : env.get? o = some history) : ∃ k, (k, history) ∈ env.histories.entries := by
  unfold get? at h
  split at h
  · rename_i own hown
    obtain rfl := Option.some.inj h
    exact ⟨o, Table.mem_of_get? hown⟩
  · obtain ⟨k, _, hk⟩ := Option.bind_eq_some_iff.1 h
    exact ⟨k, Table.mem_of_get? hk⟩

theorem exists_entry_of_resolve? {env : Environment} {o : Operand} {values : List SymbolicValue}
    (h : env.resolve? o = some values) :
    ∃ e ∈ env.histories.entries, ∃ w ∈ e.2.entries, w.2 = values := by
  obtain ⟨history, hget, hlatest⟩ := Option.bind_eq_some_iff.1 h
  obtain ⟨w, hfind, rfl⟩ := Option.map_eq_some_iff.1 hlatest
  have hw : w ∈ history.entries := List.mem_reverse.1 (List.mem_of_find?_eq_some hfind)
  obtain ⟨k, hk⟩ := exists_mem_of_get? hget
  exact ⟨_, hk, w, hw, rfl⟩

theorem WellFormed.proper_resolve? {limit : Nat} {env : Environment} (h : WellFormed limit env)
    {o : Operand} {values : List SymbolicValue} (hr : env.resolve? o = some values) :
    Proper limit values := by
  obtain ⟨e, he, w, hw, rfl⟩ := exists_entry_of_resolve? hr
  exact h.proper e he w hw

theorem WellFormed.settled_resolve? {limit : Nat} {env : Environment} (h : WellFormed limit env)
    {o : Operand} {values : List SymbolicValue} (hr : env.resolve? o = some values) :
    Settled values :=
  (h.proper_resolve? hr).settled

theorem WellFormed.exists_resolve? {limit : Nat} {env : Environment} (h : WellFormed limit env)
    {o : Operand} (hfound : (env.get? o).isSome = true) :
    ∃ values, env.resolve? o = some values := by
  obtain ⟨history, hget⟩ := Option.isSome_iff_exists.1 hfound
  obtain ⟨k, hk⟩ := exists_mem_of_get? hget
  obtain ⟨values, hlatest⟩ := History.exists_latest? (h.written _ hk)
  exact ⟨values, by rw [resolve?, hget, Option.bind_some, hlatest]⟩

theorem WellFormed.settled_copied {limit : Nat} {env : Environment} (h : WellFormed limit env)
    (o : Operand) (otherwise : SymbolicValue) : Settled (Effect.copied env o otherwise) := by
  unfold Effect.copied
  cases hr : env.resolveOperand? o with
  | none => exact Settled.singleton otherwise
  | some values =>
    cases o with
    | literal c =>
      simp only [resolveOperand?, Option.some.injEq] at hr
      subst hr
      exact Settled.singleton _
    | named name type => exact h.settled_resolve? hr
    | returnSlot => exact h.settled_resolve? hr

end Environment

/-- A chain that answers with values has removed what is repeated from some values. -/
theorem Chain.settled_of_consult {call : CallSite} {env : Environment} {chain : Chain}
    {values : List SymbolicValue} (h : Chain.consult call env chain = .ok (some values)) :
    Settled values := by
  induction chain with
  | nil => simp [Chain.consult] at h
  | cons r rest ih =>
    unfold Chain.consult at h
    split at h
    · contradiction
    · simp only [Except.ok.injEq, Option.some.injEq] at h
      subst h
      exact Settled.distinct (by simp)
    · exact ih h

theorem Chain.settled_of_recognize {call : CallSite} {env : Environment} {chain : Chain}
    {values : List SymbolicValue} (h : chain.recognize call env = .ok (some values)) :
    Settled values := by
  unfold Chain.recognize at h
  split at h
  · contradiction
  · exact Chain.settled_of_consult h

namespace Effect

open Environment

/-- How an instruction comes by the values that it writes: it makes one out of nothing or over its
operands, it copies those of an operand, or it has the answer of the chain to a call. -/
theorem values_cases [Enumeration] {chain : Chain} {knownName : Method → KnownName}
    {env : Environment} {caller : Method} {i : Instruction} {w : Operand × List SymbolicValue}
    (hw : w ∈ (ofInstruction chain knownName env caller i).writes) :
    (∃ e, w.2 = [.leaf e]) ∨ (∃ e, w.2 = [.makeIn env e]) ∨
      (∃ o e, w.2 = copied env o (.leaf e)) ∨
      ∃ call, chain.recognize call env = .ok (some w.2) := by
  cases i with
  | identity target parameter =>
    rw [List.mem_singleton.1 hw]
    exact Or.inl ⟨_, rfl⟩
  | assign target source =>
    rw [List.mem_singleton.1 hw]
    exact Or.inr (Or.inr (Or.inl ⟨source, _, rfl⟩))
  | fieldRead target base field =>
    rw [List.mem_singleton.1 hw]
    exact Or.inr (Or.inl ⟨_, rfl⟩)
  | binary target operator left right =>
    rw [List.mem_singleton.1 hw]
    exact Or.inr (Or.inl ⟨_, rfl⟩)
  | create target className =>
    rw [List.mem_singleton.1 hw]
    exact Or.inr (Or.inl ⟨_, rfl⟩)
  | invoke result method receiver arguments =>
    simp only [ofInstruction, ofCall] at hw
    split at hw
    · rename_i values hvalues
      obtain ⟨o, _, rfl⟩ := List.mem_map.1 hw
      exact Or.inr (Or.inr (Or.inr ⟨_, hvalues⟩))
    · simp only [ofUnmodelled] at hw
      split at hw
      · rw [List.mem_singleton.1 hw]
        exact Or.inr (Or.inl ⟨_, rfl⟩)
      · obtain ⟨o, _, rfl⟩ := List.mem_map.1 hw
        exact Or.inr (Or.inl ⟨_, rfl⟩)
    · obtain ⟨o, _, rfl⟩ := List.mem_map.1 hw
      exact Or.inl ⟨_, rfl⟩
  | giveBack value =>
    cases value with
    | none => simp [ofInstruction, nothing] at hw
    | some value =>
      rw [List.mem_singleton.1 hw]
      exact Or.inr (Or.inr (Or.inl ⟨value, _, rfl⟩))

theorem settled_ofInstruction [Enumeration] (chain : Chain) (knownName : Method → KnownName)
    {limit : Nat} {env : Environment} (h : WellFormed limit env) (caller : Method)
    (i : Instruction) :
    ∀ w ∈ (ofInstruction chain knownName env caller i).writes, Settled w.2 := by
  intro w hw
  rcases values_cases hw with ⟨e, hv⟩ | ⟨e, hv⟩ | ⟨o, e, hv⟩ | ⟨call, hv⟩
  · rw [hv]
    exact Settled.singleton _
  · rw [hv]
    exact Settled.singleton _
  · rw [hv]
    exact h.settled_copied o _
  · exact Chain.settled_of_recognize hv

end Effect

namespace Visit

open Environment

theorem wellFormed_writeAll {limit : Nat} {env : Environment} (h : WellFormed limit env)
    (condition : Option Condition) {writes : List (Operand × List SymbolicValue)}
    (hw : ∀ w ∈ writes, Settled w.2) : WellFormed limit (writeAll env condition writes) := by
  unfold writeAll
  induction writes generalizing env with
  | nil => exact h
  | cons w rest ih =>
    have hrest : ∀ u ∈ rest, Settled u.2 := fun u hu => hw u (by simp [hu])
    cases hl : w.1.isLiteral with
    | true => simpa [hl] using ih h hrest
    | false => simpa [hl] using ih (h.update hl (hw w (by simp)) condition) hrest

theorem wellFormed_step [Enumeration] (chain : Chain) (caller : Method) {limit : Nat} {v : Visit}
    (h : WellFormed limit v.environment) (s : Statement) :
    WellFormed limit (v.step chain caller s).environment :=
  wellFormed_writeAll h s.guard (Effect.settled_ofInstruction chain _ h caller s.instruction)

theorem wellFormed_run [Enumeration] (chain : Chain) (caller : Method) {limit : Nat} {v : Visit}
    (h : WellFormed limit v.environment) (statements : List Statement) :
    WellFormed limit (v.run chain caller statements).environment := by
  induction statements generalizing v with
  | nil => exact h
  | cons s rest ih => exact ih (wellFormed_step chain caller h s)

/-- What is known after the first statements of a body. -/
def upTo [Enumeration] (chain : Chain) (names : KnownName.Cache) (limit : Nat) (body : Body)
    (n : Nat) : Visit :=
  (start limit names).run chain body.method (body.statements.take n)

theorem upTo_succ [Enumeration] (chain : Chain) (names : KnownName.Cache) (limit : Nat)
    {body : Body} {n : Nat} {s : Statement} (h : body.statements[n]? = some s) :
    upTo chain names limit body (n + 1) =
      (upTo chain names limit body n).step chain body.method s := by
  unfold upTo
  rw [List.take_add_one, h, run_append]
  rfl

theorem upTo_succ_of_none [Enumeration] (chain : Chain) (names : KnownName.Cache) (limit : Nat)
    {body : Body} {n : Nat} (h : body.statements[n]? = none) :
    upTo chain names limit body (n + 1) = upTo chain names limit body n := by
  unfold upTo
  rw [List.take_add_one, h, Option.toList_none, List.append_nil]

theorem wellFormed_upTo [Enumeration] (chain : Chain) (names : KnownName.Cache) (limit : Nat)
    (body : Body) (n : Nat) : WellFormed limit (upTo chain names limit body n).environment :=
  wellFormed_run chain body.method (wellFormed_new limit) (body.statements.take n)

/-- After any number of statements of a body the environment has its shape, so whenever the index
by text names an operand, that operand has a history. -/
theorem wellFormed_visited [Enumeration] (chain : Chain) (names : KnownName.Cache) (limit : Nat)
    (body : Body) (n : Nat) :
    let env := (upTo chain names limit body n).environment
    WellFormed limit env ∧
      ∀ text k, env.byText.get? text = some k → (env.histories.get? k).isSome = true := by
  intro env
  have hshape : WellFormed limit env := wellFormed_upTo chain names limit body n
  refine ⟨hshape, ?_⟩
  intro text k hk
  obtain ⟨hrecorded, _⟩ := hshape.recorded _ (Table.mem_of_get? hk)
  exact Table.isSome_get?_iff.2 hrecorded

end Visit

end Provenance
