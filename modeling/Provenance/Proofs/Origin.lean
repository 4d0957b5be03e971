import Provenance.Proofs.Route

/-!
Where tags come from. A value carries a tag if the tag stands on it or on a value that its snapshot
holds, however deep. Everything a statement writes, returns or reports carries tags that were in the
environment before, and only a call that reads a text message brings a new one in. So every tag that
is found anywhere after some statements has such a call among them.
-/

set_option autoImplicit false

namespace Provenance

/-- The tag stands on the value or, at any depth, on a value of its snapshot. -/
inductive SymbolicValue.Carries (t : Tag) : SymbolicValue → Prop where
  | own {v : SymbolicValue} (h : t ∈ v.tags) : Carries t v
  | held {v u : SymbolicValue} {e : Operand × List SymbolicValue} (he : e ∈ v.snapshot.entries)
      (hu : u ∈ e.2) (h : Carries t u) : Carries t v

def deepTags (values : List SymbolicValue) : Set Tag := {t | ∃ v ∈ values, v.Carries t}

theorem mem_deepTags {t : Tag} {values : List SymbolicValue} :
    t ∈ deepTags values ↔ ∃ v ∈ values, v.Carries t := Iff.rfl

theorem deepTags_singleton (v : SymbolicValue) : deepTags [v] = {t | v.Carries t} := by
  ext t
  simp [mem_deepTags]

theorem deepTags_cons (v : SymbolicValue) (values : List SymbolicValue) :
    deepTags (v :: values) = {t | v.Carries t} ∪ deepTags values := by
  ext t
  simp [mem_deepTags]

theorem valueTags_subset_deepTags (values : List SymbolicValue) :
    valueTags values ⊆ deepTags values := by
  rintro t ⟨v, hv, ht⟩
  exact ⟨v, hv, .own ht⟩

theorem deepTags_leaf_subset (e : Expression) (tags : Set Tag) :
    deepTags [SymbolicValue.leaf e] ⊆ tags := by
  rw [deepTags_singleton]
  intro t h
  cases h with
  | own ht => exact absurd ht TagSet.not_mem_empty
  | held he hu h => simp [SymbolicValue.leaf, Table.empty] at he

namespace SymbolicValue

theorem Carries.of_addTags {v : SymbolicValue} {ts : TagSet} {t : Tag}
    (h : (v.addTags ts).Carries t) : v.Carries t ∨ t ∈ ts := by
  cases h with
  | own ht =>
    rcases TagSet.mem_union.1 ht with ht | ht
    · exact Or.inl (.own ht)
    · exact Or.inr ht
  | held he hu h => exact Or.inl (.held he hu h)

theorem Carries.of_addTag {v : SymbolicValue} {u t : Tag} (h : (v.addTag u).Carries t) :
    v.Carries t ∨ t = u := by
  cases h with
  | own ht =>
    rcases TagSet.mem_insert.1 ht with ht | ht
    · exact Or.inl (.own ht)
    · exact Or.inr ht
  | held he hu h => exact Or.inl (.held he hu h)

/-- A value made over a snapshot carries nothing that the snapshot does not carry, also if the
snapshot was too large to be kept. -/
theorem Carries.of_make [Enumeration] {e : Expression} {s : Snapshot} {t : Tag}
    (h : (make e s).Carries t) : ∃ entry ∈ s.entries, t ∈ deepTags entry.2 := by
  cases h with
  | own ht =>
    obtain ⟨entry, hentry, ht⟩ := Snapshot.mem_tags.1 ht
    exact ⟨entry, hentry, valueTags_subset_deepTags entry.2 ht⟩
  | @held _ u entry he hu h =>
    have hkept : entry ∈ s.entries := by
      unfold make at he
      split at he
      · simp [Table.empty] at he
      · exact he
    exact ⟨entry, hkept, u, hu, h⟩

theorem deepTags_addResult (results : List SymbolicValue) (v : SymbolicValue) :
    deepTags (addResult results v) ⊆ deepTags results ∪ {t | v.Carries t} := by
  induction results with
  | nil => simp [addResult, deepTags_singleton]
  | cons r rest ih =>
    by_cases h : r.text = v.text
    · simp only [addResult_cons, h, if_true, deepTags_cons]
      rintro t (ht | ht)
      · rcases Carries.of_addTags ht with ht | ht
        · exact Or.inl (Or.inl ht)
        · exact Or.inr (.own ht)
      · exact Or.inl (Or.inr ht)
    · simp only [addResult_cons, h, if_false, deepTags_cons]
      rintro t (ht | ht)
      · exact Or.inl (Or.inl ht)
      · rcases ih ht with ht | ht
        · exact Or.inl (Or.inr ht)
        · exact Or.inr ht

theorem deepTags_foldl_addResult (values results : List SymbolicValue) :
    deepTags (values.foldl addResult results) ⊆ deepTags results ∪ deepTags values := by
  induction values generalizing results with
  | nil => exact Set.subset_union_left
  | cons v rest ih =>
    intro t ht
    rw [deepTags_cons]
    rcases ih _ ht with ht | ht
    · rcases deepTags_addResult results v ht with ht | ht
      · exact Or.inl ht
      · exact Or.inr (Or.inl ht)
    · exact Or.inr (Or.inr ht)

theorem deepTags_distinct (values : List SymbolicValue) :
    deepTags (distinct values) ⊆ deepTags values := by
  intro t ht
  rcases deepTags_foldl_addResult values [] ht with ⟨v, hv, _⟩ | ht
  · simp at hv
  · exact ht

end SymbolicValue

namespace Environment

open SymbolicValue

/-- The value stands in some entry of some history, not only in the latest. -/
def Stores (env : Environment) (v : SymbolicValue) : Prop :=
  ∃ e ∈ env.histories.entries, ∃ w ∈ e.2.entries, v ∈ w.2

theorem stores_of_resolve? {env : Environment} {o : Operand} {values : List SymbolicValue}
    (h : env.resolve? o = some values) {v : SymbolicValue} (hv : v ∈ values) : env.Stores v := by
  obtain ⟨e, he, w, hw, rfl⟩ := exists_entry_of_resolve? h
  exact ⟨e, he, w, hw, hv⟩

def allTags (env : Environment) : Set Tag := {t | ∃ v, env.Stores v ∧ v.Carries t}

theorem deepTags_collapse (limit : Nat) (o : Operand) (values : List SymbolicValue) :
    deepTags (collapse limit o values) ⊆ deepTags values := by
  by_cases h : limit < values.length
  · have hall := valueTags_collapse limit o values
    rw [collapse_of_lt o h] at hall ⊢
    rw [deepTags_singleton]
    intro t ht
    cases ht with
    | own ht =>
      have hmem : t ∈ valueTags values := by
        rw [← hall, valueTags_singleton]
        exact ht
      exact valueTags_subset_deepTags values hmem
    | held he hu h => simp [Table.empty] at he
  · rw [collapse_of_le o (Nat.le_of_not_lt h)]

theorem deepTags_resolve? {env : Environment} {o : Operand} {values : List SymbolicValue}
    (h : env.resolve? o = some values) : deepTags values ⊆ env.allTags := by
  rintro t ⟨v, hv, ht⟩
  exact ⟨v, stores_of_resolve? h hv, ht⟩

theorem tagsAt_subset_allTags (env : Environment) (o : Operand) : env.tagsAt o ⊆ env.allTags := by
  cases hr : env.resolve? o with
  | none => simp [tagsAt_eq, hr]
  | some values =>
    rw [tagsAt_of_resolve? hr]
    exact (valueTags_subset_deepTags values).trans (deepTags_resolve? hr)

theorem deepTags_copied (env : Environment) (o : Operand) (e : Expression) :
    deepTags (Effect.copied env o (.leaf e)) ⊆ env.allTags := by
  unfold Effect.copied
  cases hl : o.isLiteral with
  | true =>
    obtain ⟨c, hc⟩ := env.resolveOperand?_of_literal hl
    rw [hc]
    exact deepTags_leaf_subset _ _
  | false =>
    rw [resolveOperand?_of_not_literal env hl]
    cases hr : env.resolve? o with
    | none => exact deepTags_leaf_subset _ _
    | some values => exact deepTags_resolve? hr

theorem deepTags_resolveOrUnknown (env : Environment) (o : Operand) :
    deepTags (env.resolveOrUnknown o) ⊆ env.allTags := by
  rcases env.resolveOrUnknown_cases o with h | h
  · rw [h]
    exact deepTags_leaf_subset _ _
  · rw [h]
    exact env.deepTags_copied o _

theorem deepTags_capture {env : Environment} {operands : List Operand}
    {e : Operand × List SymbolicValue} (h : e ∈ (env.capture operands).entries) :
    deepTags e.2 ⊆ env.allTags :=
  deepTags_resolve? (mem_capture.1 h).2.2

theorem deepTags_makeIn [Enumeration] (env : Environment) (e : Expression) :
    deepTags [makeIn env e] ⊆ env.allTags := by
  rw [deepTags_singleton]
  intro t ht
  obtain ⟨entry, hentry, ht⟩ := Carries.of_make ht
  exact deepTags_capture hentry ht

theorem deepTags_describeIn [Enumeration] (env : Environment) (call : CallSite) :
    deepTags [call.describeIn env] ⊆ env.allTags :=
  env.deepTags_makeIn call.expression

theorem deepTags_propagate {env : Environment} (o : Operand) {values : List SymbolicValue}
    (h : deepTags values ⊆ env.allTags) :
    deepTags (Recognizer.propagate env o values) ⊆ env.allTags := by
  rintro t ⟨u, hu, ht⟩
  obtain ⟨v, hv, rfl⟩ := List.mem_map.1 hu
  rcases Carries.of_addTags ht with ht | ht
  · exact h ⟨v, hv, ht⟩
  · exact env.tagsAt_subset_allTags o ht

theorem deepTags_foldl_propagate {env : Environment} (os : List Operand)
    {values : List SymbolicValue} (h : deepTags values ⊆ env.allTags) :
    deepTags (os.foldl (fun values a => Recognizer.propagate env a values) values) ⊆
      env.allTags := by
  induction os generalizing values with
  | nil => exact h
  | cons o rest ih => exact ih (deepTags_propagate o h)

theorem deepTags_passOn (env : Environment) (o : Operand) :
    deepTags (Recognizer.passOn env o) ⊆ env.allTags :=
  deepTags_propagate o (env.deepTags_resolveOrUnknown o)

theorem deepTags_foldOrDescribe [Enumeration] (env : Environment) (call : CallSite)
    (base : Operand) (arguments : List Operand) (fold : Constant → Option Constant) :
    deepTags ((env.resolveOrUnknown base).map
      (Recognizer.foldOrDescribe call (env.capture arguments) base fold)) ⊆ env.allTags := by
  rintro t ⟨u, hu, ht⟩
  obtain ⟨v, hv, rfl⟩ := List.mem_map.1 hu
  cases hc : v.constant?.bind fold with
  | some c =>
    rw [Recognizer.foldOrDescribe_of_some call _ base hc] at ht
    exact deepTags_leaf_subset _ _ ⟨_, List.mem_singleton_self _, ht⟩
  | none =>
    rw [Recognizer.foldOrDescribe_of_none call _ base hc] at ht
    obtain ⟨entry, hentry, ht⟩ := Carries.of_make ht
    rcases Table.mem_insert hentry with rfl | hentry
    · rw [deepTags_singleton] at ht
      exact env.deepTags_resolveOrUnknown base ⟨v, hv, ht⟩
    · exact deepTags_capture hentry ht

theorem deepTags_constructed [Enumeration] (env : Environment) (call : CallSite) :
    deepTags (Recognizer.constructed call env) ⊆ env.allTags := by
  unfold Recognizer.constructed
  split
  · exact deepTags_leaf_subset _ _
  · split
    · exact deepTags_leaf_subset _ _
    · split
      · exact deepTags_leaf_subset _ _
      · split
        · exact env.deepTags_describeIn call
        · exact env.deepTags_passOn _
  · exact env.deepTags_describeIn call

theorem deepTags_modelValues_of_no_source [Enumeration] (env : Environment) {call : CallSite}
    (h : call.knownName.sourceTag? = none) : deepTags (call.modelValues env) ⊆ env.allTags := by
  have hdescribed := env.deepTags_describeIn call
  have hnil : deepTags [] ⊆ env.allTags := by simp [deepTags]
  cases hk : call.knownName with
  | unmodelled => simpa [CallSite.modelValues, hk, KnownName.sourceTag?] using hnil
  | smsBody | smsSender | smsDisplayBody | smsDisplaySender => simp [hk, KnownName.sourceTag?] at h
  | construct => simpa [CallSite.modelValues, hk] using env.deepTags_constructed call
  | append | concat =>
    simp only [CallSite.modelValues, hk]
    split
    · exact deepTags_propagate _ (deepTags_propagate _ (env.deepTags_foldOrDescribe call _ _ _))
    · exact hdescribed
  | substring =>
    cases hr : call.receiver with
    | none => simpa [CallSite.modelValues, hk, hr] using hnil
    | some base =>
      have hcuts := env.deepTags_foldOrDescribe call base call.arguments
        (Recognizer.cut? (Recognizer.positions? call.arguments))
      simpa [CallSite.modelValues, hk, hr, CallSite.cuts] using hcuts
  | valueOf =>
    simp only [CallSite.modelValues, hk]
    split
    · split
      · exact deepTags_leaf_subset _ _
      · exact env.deepTags_passOn _
    · exact hdescribed
  | format =>
    cases hr : call.receiver with
    | none => simpa [CallSite.modelValues, hk, hr] using hnil
    | some base =>
      have htagged := deepTags_foldl_propagate call.arguments (env.deepTags_resolveOrUnknown base)
      simpa [CallSite.modelValues, hk, hr] using htagged
  | toLowerCase | toText =>
    cases hr : call.receiver with
    | none => simpa [CallSite.modelValues, hk, hr] using hnil
    | some base => simpa [CallSite.modelValues, hk, hr] using env.deepTags_passOn base

theorem deepTags_modelValues [Enumeration] (env : Environment) (call : CallSite) :
    deepTags (call.modelValues env) ⊆
      env.allTags ∪ {t | call.knownName.sourceTag? = some t} := by
  cases hs : call.knownName.sourceTag? with
  | none => exact Set.subset_union_of_subset_left (env.deepTags_modelValues_of_no_source hs) _
  | some tag =>
    rw [CallSite.modelValues_of_source env hs, deepTags_singleton]
    intro t ht
    rcases Carries.of_addTag ht with ht | rfl
    · exact Or.inl (env.deepTags_describeIn call ⟨_, List.mem_singleton_self _, ht⟩)
    · exact Or.inr rfl

theorem not_stores_new (limit : Nat) (v : SymbolicValue) : ¬ (new limit).Stores v := by
  simp [Stores, new, Table.empty]

theorem Stores.of_update {env : Environment} {o : Operand} {values : List SymbolicValue}
    {condition : Option Condition} {v : SymbolicValue}
    (h : (env.update o values condition).Stores v) :
    env.Stores v ∨ v ∈ collapse env.limit o values := by
  obtain ⟨e, he, w, hw, hv⟩ := h
  rcases Table.mem_insert he with rfl | he
  · rcases List.mem_append.1 hw with hw | hw
    · cases hg : env.histories.get? o with
      | none => simp [hg, History.empty] at hw
      | some prior =>
        rw [hg] at hw
        exact Or.inl ⟨_, Table.mem_of_get? hg, w, hw, hv⟩
    · rw [List.mem_singleton.1 hw] at hv
      exact Or.inr hv
  · exact Or.inl ⟨e, he, w, hw, hv⟩

theorem allTags_update (env : Environment) (o : Operand) (values : List SymbolicValue)
    (condition : Option Condition) :
    (env.update o values condition).allTags ⊆ env.allTags ∪ deepTags values := by
  rintro t ⟨v, hv, ht⟩
  rcases hv.of_update with hv | hv
  · exact Or.inl ⟨v, hv, ht⟩
  · exact Or.inr (deepTags_collapse _ o values ⟨v, hv, ht⟩)

end Environment

/-- The instruction calls a getter of a text message, and the tag is the one of the part that the
getter shows. -/
def Instruction.ReadsMessage (t : Tag) : Instruction → Prop
  | .invoke _ method _ _ => method.className ∈ KnownName.messageClasses ∧
      ∃ getter, KnownName.ofMessage method.name = some getter ∧ getter.sourceTag? = some t
  | _ => False

theorem Method.reads_of_source {m : Method} {t : Tag} (h : m.knownName.sourceTag? = some t) :
    m.className ∈ KnownName.messageClasses ∧
      ∃ getter, KnownName.ofMessage m.name = some getter ∧ getter.sourceTag? = some t := by
  rcases m.knownName_cases with ⟨_, hk⟩ | ⟨_, hk⟩ | ⟨hclass, hk⟩ | hk | hk
  · simp [KnownName.sourceTag?_of_ofString hk] at h
  · simp [KnownName.sourceTag?_of_ofBuilder hk] at h
  · exact ⟨hclass, m.knownName, hk, h⟩
  · simp [hk, KnownName.sourceTag?] at h
  · simp [hk, KnownName.sourceTag?] at h

namespace Effect

open Environment

theorem deepTags_ofCall [Enumeration] (env : Environment) (caller : Method) (call : CallSite)
    (result : Option Operand) :
    ∀ w ∈ (ofCall Recognizer.standard env caller call result).writes,
      deepTags w.2 ⊆ env.allTags ∪ {t | call.knownName.sourceTag? = some t} := by
  intro w hw
  rw [values_ofCall call hw]
  cases call.verdict with
  | faulty => exact deepTags_leaf_subset _ _
  | unmodelled =>
    refine Set.subset_union_of_subset_left ?_ _
    by_cases hobject : (call.receiver.isSome && call.method.isConstructor) = true
    · simp only [hobject, if_true]
      exact env.deepTags_makeIn _
    · simp only [hobject]
      exact env.deepTags_describeIn call
  | modelled =>
    exact (SymbolicValue.deepTags_distinct _).trans (env.deepTags_modelValues call)

theorem deepTags_writes [Enumeration] (env : Environment) (caller : Method) (i : Instruction) :
    ∀ w ∈ (standard env caller i).writes, deepTags w.2 ⊆ env.allTags ∪ {t | i.ReadsMessage t} := by
  intro w hw
  cases i with
  | identity target parameter =>
    rw [List.mem_singleton.1 hw]
    exact deepTags_leaf_subset _ _
  | assign target source =>
    rw [List.mem_singleton.1 hw]
    exact Set.subset_union_of_subset_left (env.deepTags_copied source _) _
  | fieldRead target base field =>
    rw [List.mem_singleton.1 hw]
    exact Set.subset_union_of_subset_left (env.deepTags_makeIn _) _
  | binary target operator left right =>
    rw [List.mem_singleton.1 hw]
    exact Set.subset_union_of_subset_left (env.deepTags_makeIn _) _
  | create target className =>
    rw [List.mem_singleton.1 hw]
    exact Set.subset_union_of_subset_left (env.deepTags_makeIn _) _
  | invoke result method receiver arguments =>
    have hcall := deepTags_ofCall env caller (.named method receiver arguments) result w hw
    refine hcall.trans (Set.union_subset_union_right _ ?_)
    exact fun t ht => Method.reads_of_source ht
  | giveBack value =>
    cases value with
    | none => simp [standard, ofInstruction, nothing] at hw
    | some value =>
      rw [List.mem_singleton.1 hw]
      exact Set.subset_union_of_subset_left (env.deepTags_copied value _) _

theorem deepTags_returns [Enumeration] (env : Environment) (caller : Method) (i : Instruction) :
    deepTags (standard env caller i).returns ⊆ env.allTags := by
  have hnil : deepTags [] ⊆ env.allTags := by simp [deepTags]
  cases i with
  | invoke result method receiver arguments => rwa [returns_standard]
  | giveBack value =>
    cases value with
    | none => exact hnil
    | some value => exact env.deepTags_copied value _
  | _ => exact hnil

theorem tags_of_mem_flows [Enumeration] {env : Environment} {caller : Method} {i : Instruction}
    {f : Flow} (hf : f ∈ (standard env caller i).flows) {t : Tag} (ht : t ∈ f.tags) :
    t ∈ env.allTags := by
  obtain ⟨o, _, _, htags⟩ := exists_operand_of_flow hf
  rw [htags] at ht
  exact env.tagsAt_subset_allTags o ht

end Effect

def ReadsBefore (statements : List Statement) (n : Nat) (t : Tag) : Prop :=
  ∃ i < n, ∃ s, statements[i]? = some s ∧ s.instruction.ReadsMessage t

theorem ReadsBefore.succ {statements : List Statement} {n : Nat} {t : Tag}
    (h : ReadsBefore statements n t) : ReadsBefore statements (n + 1) t := by
  obtain ⟨i, hi, hs⟩ := h
  exact ⟨i, Nat.lt_succ_of_lt hi, hs⟩

namespace Visit

open Environment

theorem allTags_writeAll (env : Environment) (condition : Option Condition)
    {writes : List (Operand × List SymbolicValue)} {tags : Set Tag} (henv : env.allTags ⊆ tags)
    (hw : ∀ w ∈ writes, deepTags w.2 ⊆ tags) : (writeAll env condition writes).allTags ⊆ tags := by
  induction writes generalizing env with
  | nil => exact henv
  | cons w rest ih =>
    have hrest : ∀ u ∈ rest, deepTags u.2 ⊆ tags := fun u hu => hw u (by simp [hu])
    cases hl : w.1.isLiteral with
    | true =>
      rw [writeAll_literal env condition rest hl]
      exact ih env henv hrest
    | false =>
      have hhead : deepTags w.2 ⊆ tags := hw w (by simp)
      have hnext := (env.allTags_update w.1 w.2 condition).trans (Set.union_subset henv hhead)
      rw [writeAll_cons env condition rest hl]
      exact ih _ hnext hrest

theorem allTags_step [Enumeration] (caller : Method) (v : Visit) (s : Statement) :
    (v.step Recognizer.standard caller s).environment.allTags ⊆
      v.environment.allTags ∪ {t | s.instruction.ReadsMessage t} := by
  rw [environment_step]
  exact allTags_writeAll v.environment s.guard Set.subset_union_left
    (Effect.deepTags_writes v.environment caller s.instruction)

theorem deepTags_returns_step [Enumeration] (caller : Method) (v : Visit) (s : Statement) :
    deepTags (v.step Recognizer.standard caller s).returns ⊆
      deepTags v.returns ∪ v.environment.allTags := by
  have hnew := Effect.deepTags_returns v.environment caller s.instruction
  rw [returns_step]
  exact (SymbolicValue.deepTags_foldl_addResult _ _).trans (Set.union_subset_union_right _ hnew)

section

variable [Enumeration] (names : KnownName.Cache) (limit : Nat) (body : Body)

theorem readsBefore_of_allTags (n : Nat) :
    (upTo Recognizer.standard names limit body n).environment.allTags ⊆
      {t | ReadsBefore body.statements n t} := by
  induction n with
  | zero =>
    rintro t ⟨v, hv, _⟩
    exact absurd hv (not_stores_new limit v)
  | succ n ih =>
    intro t ht
    cases hs : body.statements[n]? with
    | none =>
      rw [upTo_succ_of_none Recognizer.standard names limit hs] at ht
      exact (ih ht).succ
    | some s =>
      rw [upTo_succ Recognizer.standard names limit hs] at ht
      rcases allTags_step body.method _ s ht with ht | ht
      · exact (ih ht).succ
      · exact ⟨n, Nat.lt_succ_self n, s, hs, ht⟩

theorem readsBefore_of_returns (n : Nat) :
    deepTags (upTo Recognizer.standard names limit body n).returns ⊆
      {t | ReadsBefore body.statements n t} := by
  induction n with
  | zero =>
    rintro t ⟨v, hv, _⟩
    simp [upTo, run, start] at hv
  | succ n ih =>
    intro t ht
    cases hs : body.statements[n]? with
    | none =>
      rw [upTo_succ_of_none Recognizer.standard names limit hs] at ht
      exact (ih ht).succ
    | some s =>
      rw [upTo_succ Recognizer.standard names limit hs] at ht
      rcases deepTags_returns_step body.method _ s ht with ht | ht
      · exact (ih ht).succ
      · exact ReadsBefore.succ (readsBefore_of_allTags names limit body n ht)

theorem readsBefore_of_flow (n : Nat) {p : Nat} {f : Flow} {t : Tag}
    (hf : (upTo Recognizer.standard names limit body n).flows[p]? = some f) (ht : t ∈ f.tags) :
    ∃ j < n, (upTo Recognizer.standard names limit body j).flows.length ≤ p ∧
      (upTo Recognizer.standard names limit body (j + 1)).flows[p]? = some f ∧
      ReadsBefore body.statements j t := by
  induction n with
  | zero => simp [upTo, run, start] at hf
  | succ n ih =>
    cases hs : body.statements[n]? with
    | none =>
      rw [upTo_succ_of_none Recognizer.standard names limit hs] at hf
      obtain ⟨j, hj, hreported⟩ := ih hf
      exact ⟨j, Nat.lt_succ_of_lt hj, hreported⟩
    | some s =>
      by_cases hp : p < (upTo Recognizer.standard names limit body n).flows.length
      · rw [upTo_succ Recognizer.standard names limit hs, flows_step,
          List.getElem?_append_left hp] at hf
        obtain ⟨j, hj, hreported⟩ := ih hf
        exact ⟨j, Nat.lt_succ_of_lt hj, hreported⟩
      · have hle := Nat.le_of_not_lt hp
        refine ⟨n, Nat.lt_succ_self n, hle, hf, ?_⟩
        rw [upTo_succ Recognizer.standard names limit hs, flows_step,
          List.getElem?_append_right hle] at hf
        have hbefore := Effect.tags_of_mem_flows (List.mem_of_getElem? hf) ht
        exact readsBefore_of_allTags names limit body n hbefore

end

/-- No source, no tag. Whatever value is stored or returned after some statements of a body, each
tag on it or anywhere in its snapshot was brought in by one of these statements; and each tag of a
flow was brought in by a statement before the one that reported the flow. -/
theorem readsBefore_of_carries [Enumeration] (names : KnownName.Cache) (limit : Nat) (body : Body)
    (n : Nat) (t : Tag) :
    let visit := upTo Recognizer.standard names limit body
    (∀ v, (visit n).environment.Stores v ∨ v ∈ (visit n).returns → v.Carries t →
      ReadsBefore body.statements n t) ∧
    ∀ p f, (visit n).flows[p]? = some f → t ∈ f.tags →
      ∃ j < n, (visit j).flows.length ≤ p ∧ (visit (j + 1)).flows[p]? = some f ∧
        ReadsBefore body.statements j t := by
  intro visit
  refine ⟨?_, fun p f hf ht => readsBefore_of_flow names limit body n hf ht⟩
  rintro v (hv | hv) ht
  · exact readsBefore_of_allTags names limit body n ⟨v, hv, ht⟩
  · exact readsBefore_of_returns names limit body n ⟨v, hv, ht⟩

theorem sender_read_before_logged :
    let visit := upTo Recognizer.standard .empty 1 senderBody
    (∃ v, (visit 6).environment.Stores v ∧ v.Carries .smsSender) ∧
    ReadsBefore senderBody.statements 6 .smsSender ∧
    ∃ j < 6, (visit j).flows.length ≤ 0 ∧
      (visit (j + 1)).flows[0]? = some ⟨senderBody.method.text,
        "<android.util.Log: int d(java.lang.String)>", "r3", ["#sms/#sender"]⟩ ∧
      ReadsBefore senderBody.statements j .smsSender := by
  intro visit
  have htag : Tag.smsSender ∈ (visit 6).environment.tagsOf (.named "r3" "java.lang.String") := by
    decide +kernel
  obtain ⟨v, hv, ht⟩ := tagsAt_subset_allTags _ _ htag
  have horigin := readsBefore_of_carries .empty 1 senderBody 6 .smsSender
  exact ⟨⟨v, hv, ht⟩, horigin.1 v (Or.inl hv) ht,
    horigin.2 0 _ (by decide +kernel) (by simp [Tag.smsSender])⟩

end Visit

end Provenance
