import Provenance.Proofs.Writes

/-!
Which operands of a statement hand a tag on. The invariant is about every single value that an
operand holds: each is tagged and none is a constant. Both are needed, since a constant may be cut
to a part that has no tags any more.
-/

set_option autoImplicit false

namespace Provenance

/-- Values that all have a tag and that cannot be folded. -/
structure Tainted (t : Tag) (values : List SymbolicValue) : Prop where
  nonempty : values ≠ []
  each : ∀ v ∈ values, v.constant? = none ∧ t ∈ v.tags

/-- The operands that hand on to the written ones what they hold themselves. -/
def CallSite.carriers (call : CallSite) : List Operand :=
  match call.verdict with
  | .faulty => []
  | .unmodelled =>
    if call.receiver.isSome && call.method.isConstructor then call.arguments else call.operands
  | .modelled =>
    match call.knownName with
    -- What is formatted does not count: the formatter itself may be a constant.
    | .toLowerCase | .toText | .format => call.receiver.toList
    | .valueOf => call.arguments
    | .construct =>
      match call.arguments with
      | [argument] => if call.isCapacity argument then [] else [argument]
      | arguments => arguments
    | _ => call.operands

def Instruction.carriers : Instruction → List Operand
  | .identity _ _ | .create _ _ => []
  | .assign _ source => [source]
  | .fieldRead _ base _ => [base]
  | .binary _ _ left right => [left, right]
  | .invoke _ method receiver arguments => (CallSite.named method receiver arguments).carriers
  | .giveBack value => value.toList

namespace Tainted

theorem singleton {t : Tag} {v : SymbolicValue} (hc : v.constant? = none) (ht : t ∈ v.tags) :
    Tainted t [v] := ⟨by simp, by simpa using ⟨hc, ht⟩⟩

theorem addTag {t : Tag} {v : SymbolicValue} (h : Tainted t [v]) (tag : Tag) :
    Tainted t [v.addTag tag] := by
  obtain ⟨hc, ht⟩ := h.each v (by simp)
  exact singleton hc (TagSet.mem_insert.2 (Or.inl ht))

theorem distinct {t : Tag} {values : List SymbolicValue} (h : Tainted t values) :
    Tainted t (SymbolicValue.distinct values) := by
  refine ⟨SymbolicValue.distinct_ne_nil h.nonempty, SymbolicValue.forall_distinct ?_ h.each⟩
  rintro v ts ⟨hc, ht⟩
  exact ⟨hc, TagSet.mem_union.2 (Or.inl ht)⟩

theorem collapse {t : Tag} {values : List SymbolicValue} (h : Tainted t values) (limit : Nat)
    (o : Operand) : Tainted t (Environment.collapse limit o values) := by
  by_cases hlt : limit < values.length
  · rw [Environment.collapse_of_lt o hlt]
    obtain ⟨v, hv⟩ := List.exists_mem_of_ne_nil values h.nonempty
    apply singleton rfl
    exact TagSet.mem_unions.2 ⟨v.tags, List.mem_map.2 ⟨v, hv, rfl⟩, (h.each v hv).2⟩
  · rwa [Environment.collapse_of_le o (Nat.le_of_not_lt hlt)]

theorem propagate {t : Tag} {values : List SymbolicValue} (h : Tainted t values)
    (env : Environment) (o : Operand) : Tainted t (Recognizer.propagate env o values) := by
  refine ⟨Recognizer.propagate_ne_nil env o h.nonempty, ?_⟩
  intro u hu
  obtain ⟨v, hv, rfl⟩ := List.mem_map.1 hu
  obtain ⟨hc, ht⟩ := h.each v hv
  exact ⟨hc, TagSet.mem_union.2 (Or.inl ht)⟩

theorem foldl_propagate {t : Tag} {values : List SymbolicValue} (h : Tainted t values)
    (env : Environment) (os : List Operand) :
    Tainted t (os.foldl (fun values a => Recognizer.propagate env a values) values) := by
  induction os generalizing values with
  | nil => exact h
  | cons o rest ih => exact ih (h.propagate env o)

theorem of_propagate {t : Tag} {values : List SymbolicValue} (hne : values ≠ [])
    (hc : ∀ v ∈ values, v.constant? = none) (env : Environment) {o : Operand}
    (ht : t ∈ env.tagsAt o) : Tainted t (Recognizer.propagate env o values) := by
  refine ⟨Recognizer.propagate_ne_nil env o hne, ?_⟩
  intro u hu
  obtain ⟨v, hv, rfl⟩ := List.mem_map.1 hu
  exact ⟨hc v hv, TagSet.mem_union.2 (Or.inr ht)⟩

end Tainted

namespace Environment

def Holds (env : Environment) (t : Tag) (x : Operand) : Prop :=
  ∃ history values, env.histories.get? x = some history ∧
    history.latest? none = some values ∧ Tainted t values

theorem Holds.resolve? {env : Environment} {t : Tag} {x : Operand} (h : env.Holds t x) :
    ∃ values, env.resolve? x = some values ∧ Tainted t values := by
  obtain ⟨history, values, hget, hlatest, htainted⟩ := h
  exact ⟨values, (resolve?_of_history hget).trans hlatest, htainted⟩

theorem Holds.mem_tagsAt {env : Environment} {t : Tag} {x : Operand} (h : env.Holds t x) :
    t ∈ env.tagsAt x := by
  obtain ⟨values, hres, htainted⟩ := h.resolve?
  obtain ⟨v, hv⟩ := List.exists_mem_of_ne_nil values htainted.nonempty
  rw [tagsAt_of_resolve? hres]
  exact ⟨v, hv, (htainted.each v hv).2⟩

theorem Holds.mem_tagsAmong {env : Environment} {t : Tag} {x : Operand} (h : env.Holds t x)
    (hx : x.isLiteral = false) {os : List Operand} (hmem : x ∈ os) : t ∈ env.tagsAmong os :=
  ⟨x, hmem, hx, h.mem_tagsAt⟩

theorem Holds.resolveOrUnknown {env : Environment} {t : Tag} {x : Operand} (h : env.Holds t x)
    (hx : x.isLiteral = false) : Tainted t (env.resolveOrUnknown x) := by
  obtain ⟨values, hres, htainted⟩ := h.resolve?
  have hop : env.resolveOperand? x = some values := by
    rw [resolveOperand?_of_not_literal env hx, hres]
  unfold Environment.resolveOrUnknown
  rw [hop]
  cases hv : values with
  | nil => exact absurd hv htainted.nonempty
  | cons v rest => rwa [hv] at htainted

theorem Holds.copied {env : Environment} {t : Tag} {x : Operand} (h : env.Holds t x)
    (hx : x.isLiteral = false) (otherwise : SymbolicValue) :
    Tainted t (Effect.copied env x otherwise) := by
  obtain ⟨values, hres, htainted⟩ := h.resolve?
  rw [Effect.copied, resolveOperand?_of_not_literal env hx, hres]
  exact htainted

theorem Holds.makeIn [Enumeration] {env : Environment} {t : Tag} {x : Operand}
    (h : env.Holds t x) (hx : x.isLiteral = false) {e : Expression} (hmem : x ∈ e.operands)
    (he : (SymbolicValue.makeIn env e).constant? = none) :
    Tainted t [SymbolicValue.makeIn env e] :=
  Tainted.singleton he (mem_tags_capture.2 (h.mem_tagsAmong hx hmem))

theorem Holds.describeIn [Enumeration] {env : Environment} {t : Tag} {x : Operand}
    (h : env.Holds t x) (hx : x.isLiteral = false) {call : CallSite} (hmem : x ∈ call.operands) :
    Tainted t [call.describeIn env] :=
  Tainted.singleton rfl (mem_tags_capture.2 (h.mem_tagsAmong hx hmem))

theorem Holds.passOn {env : Environment} {t : Tag} {x : Operand} (h : env.Holds t x)
    (hx : x.isLiteral = false) : Tainted t (Recognizer.passOn env x) :=
  (h.resolveOrUnknown hx).propagate env x

/-- If the receiver is tainted, no candidate folds and each is described with itself. -/
theorem Holds.foldOrDescribe_receiver [Enumeration] {env : Environment} {t : Tag} {x : Operand}
    (h : env.Holds t x) (hx : x.isLiteral = false) (call : CallSite) (s : Snapshot)
    (fold : Constant → Option Constant) :
    Tainted t ((env.resolveOrUnknown x).map (Recognizer.foldOrDescribe call s x fold)) := by
  have hbase := h.resolveOrUnknown hx
  refine ⟨by simpa using hbase.nonempty, ?_⟩
  intro u hu
  obtain ⟨v, hv, rfl⟩ := List.mem_map.1 hu
  obtain ⟨hc, ht⟩ := hbase.each v hv
  have hnone : v.constant?.bind fold = none := by rw [hc]; rfl
  rw [Recognizer.foldOrDescribe_of_none call s x hnone]
  refine ⟨rfl, Snapshot.mem_tags_insert_self s x ?_⟩
  rwa [valueTags_singleton]

theorem Holds.appended [Enumeration] {env : Environment} {t : Tag} {x : Operand}
    (h : env.Holds t x) (hx : x.isLiteral = false) (call : CallSite) {base argument : Operand}
    (hmem : x = base ∨ x = argument) :
    Tainted t (Recognizer.appended call env base argument) := by
  rcases hmem with rfl | rfl
  · exact ((h.foldOrDescribe_receiver hx call _ _).propagate env x).propagate env argument
  · -- Nothing folds over an argument that is not a literal; the tag comes by propagation.
    have hliteral : x.literal? = none := by simpa [Operand.isLiteral] using hx
    apply Tainted.of_propagate _ _ env h.mem_tagsAt
    · apply Recognizer.propagate_ne_nil
      simpa using env.resolveOrUnknown_ne_nil base
    · intro u hu
      obtain ⟨w, hw, rfl⟩ := List.mem_map.1 hu
      obtain ⟨v, _, rfl⟩ := List.mem_map.1 hw
      have hnone : v.constant?.bind (fun c => x.literal?.map c.concat) = none := by
        cases v.constant? <;> simp [hliteral]
      rw [Recognizer.foldOrDescribe_of_none call _ base hnone]
      rfl

theorem Holds.cuts [Enumeration] {env : Environment} {t : Tag} {x : Operand}
    (h : env.Holds t x) (hx : x.isLiteral = false) (call : CallSite) {base : Operand}
    (hmem : x = base ∨ x ∈ call.arguments) : Tainted t (call.cuts env base) := by
  by_cases hbase : x = base
  · subst hbase
    exact h.foldOrDescribe_receiver hx call _ _
  · have harg : x ∈ call.arguments := hmem.resolve_left hbase
    obtain ⟨values, hres, htainted⟩ := h.resolve?
    obtain ⟨w, hw⟩ := List.exists_mem_of_ne_nil values htainted.nonempty
    have hentry : (x, values) ∈ (env.capture call.arguments).entries :=
      mem_capture.2 ⟨harg, hx, hres⟩
    have htag : t ∈ valueTags values := ⟨w, hw, (htainted.each w hw).2⟩
    refine ⟨by simpa [CallSite.cuts] using env.resolveOrUnknown_ne_nil base, ?_⟩
    intro u hu
    obtain ⟨v, _, rfl⟩ := List.mem_map.1 hu
    have hnone : v.constant?.bind (Recognizer.cut? (Recognizer.positions? call.arguments)) =
        none := by
      rw [Recognizer.positions?_eq_none harg hx]
      cases v.constant? <;> rfl
    rw [Recognizer.foldOrDescribe_of_none call _ base hnone]
    exact ⟨rfl, Snapshot.mem_tags_insert_of_ne hentry hbase htag⟩

theorem Holds.constructed [Enumeration] {env : Environment} {t : Tag} {x : Operand}
    (h : env.Holds t x) (hx : x.isLiteral = false) {call : CallSite}
    (hname : call.knownName = call.method.knownName) (hk : call.knownName = .construct)
    (harg : x ∈ call.arguments) (hcap : call.arguments = [x] → call.isCapacity x = false) :
    Tainted t (Recognizer.constructed call env) := by
  have hliteral : x.literal? = none := by simpa [Operand.isLiteral] using hx
  have hmany : Tainted t [call.describeIn env] :=
    h.describeIn hx (by simp [CallSite.operands, harg])
  unfold Recognizer.constructed
  rcases hargs : call.arguments with _ | ⟨a, _ | ⟨b, rest⟩⟩
  · simp [hargs] at harg
  · have ha : x = a := by simpa [hargs] using harg
    subst ha
    have hbuilder := Method.builder_of_construct (hname.symm.trans hk)
    have hnot : ¬ (x.staticType = "int" ∧ call.method.className ≠ KnownName.stringClass) := by
      have hfalse := hcap hargs
      rw [hbuilder]
      simpa [CallSite.isCapacity] using hfalse
    simpa [hliteral, hnot] using h.passOn hx
  · simpa using hmany

theorem Holds.modelValues [Enumeration] {env : Environment} {t : Tag} {x : Operand}
    (h : env.Holds t x) (hx : x.isLiteral = false) {call : CallSite}
    (hname : call.knownName = call.method.knownName) (hv : call.verdict = .modelled)
    (hmem : x ∈ call.carriers) : Tainted t (call.modelValues env) := by
  have hdescribed : x ∈ call.operands → Tainted t [call.describeIn env] := h.describeIn hx
  unfold CallSite.carriers at hmem
  rw [hv] at hmem
  cases hk : call.knownName with
  | unmodelled => simp [CallSite.isUnmodelled, hk, CallSite.verdict_eq_modelled] at hv
  | smsBody | smsSender | smsDisplayBody | smsDisplaySender =>
    simp only [hk] at hmem
    obtain ⟨tag, hsource⟩ : ∃ tag, call.knownName.sourceTag? = some tag := ⟨_, by rw [hk]; rfl⟩
    rw [CallSite.modelValues_of_source env hsource]
    exact (hdescribed hmem).addTag tag
  | construct =>
    simp only [hk] at hmem
    have hsplit : x ∈ call.arguments ∧ (call.arguments = [x] → call.isCapacity x = false) := by
      split at hmem
      · rename_i argument hargs
        split at hmem
        · simp at hmem
        · rename_i hcap
          have hxa : x = argument := by simpa using hmem
          subst hxa
          exact ⟨by simp [hargs], fun _ => by simpa using hcap⟩
      · rename_i hother
        exact ⟨hmem, fun hargs => (hother x hargs).elim⟩
    simpa [CallSite.modelValues, hk] using h.constructed hx hname hk hsplit.1 hsplit.2
  | append | concat =>
    simp only [hk] at hmem
    obtain ⟨base, hr⟩ := CallSite.exists_receiver_of_modelled hv (by rw [hk]; rfl)
    rcases hargs : call.arguments with _ | ⟨a, _ | ⟨b, rest⟩⟩
    · simpa [CallSite.modelValues, hk, hr, hargs] using hdescribed hmem
    · have hone : x = base ∨ x = a := by simpa [CallSite.operands, hr, hargs] using hmem
      simpa [CallSite.modelValues, hk, hr, hargs] using h.appended hx call hone
    · simpa [CallSite.modelValues, hk, hr, hargs] using hdescribed hmem
  | substring =>
    simp only [hk] at hmem
    obtain ⟨base, hr⟩ := CallSite.exists_receiver_of_modelled hv (by rw [hk]; rfl)
    have hone : x = base ∨ x ∈ call.arguments := by simpa [CallSite.operands, hr] using hmem
    simpa [CallSite.modelValues, hk, hr] using h.cuts hx call hone
  | valueOf =>
    simp only [hk] at hmem
    have hliteral : x.literal? = none := by simpa [Operand.isLiteral] using hx
    have hmany := hdescribed (by simp [CallSite.operands, hmem])
    rcases hargs : call.arguments with _ | ⟨a, _ | ⟨b, rest⟩⟩
    · simp [hargs] at hmem
    · have ha : x = a := by simpa [hargs] using hmem
      subst ha
      simpa [CallSite.modelValues, hk, hargs, hliteral] using h.passOn hx
    · simpa [CallSite.modelValues, hk, hargs] using hmany
  | format =>
    simp only [hk, Option.mem_toList] at hmem
    simpa [CallSite.modelValues, hk, hmem] using
      (h.resolveOrUnknown hx).foldl_propagate env call.arguments
  | toLowerCase | toText =>
    simp only [hk, Option.mem_toList] at hmem
    simpa [CallSite.modelValues, hk, hmem] using h.passOn hx

end Environment

namespace Effect

open Environment

theorem tainted_ofCall [Enumeration] {env : Environment} {t : Tag} {x : Operand}
    (h : env.Holds t x) (hx : x.isLiteral = false) (caller : Method) {call : CallSite}
    (hname : call.knownName = call.method.knownName) (result : Option Operand)
    (hmem : x ∈ call.carriers) :
    ∀ w ∈ (ofCall Recognizer.standard env caller call result).writes, Tainted t w.2 := by
  intro w hw
  rw [values_ofCall call hw]
  cases hv : call.verdict with
  | faulty => simp [CallSite.carriers, hv] at hmem
  | unmodelled =>
    simp only [CallSite.carriers, hv] at hmem
    by_cases hobject : (call.receiver.isSome && call.method.isConstructor) = true
    · simp only [hobject, if_true] at hmem ⊢
      exact h.makeIn hx hmem rfl
    · simp only [hobject] at hmem ⊢
      exact h.describeIn hx hmem
  | modelled => exact (h.modelValues hx hname hv hmem).distinct

/-- Everything that an instruction writes is tainted if one of its carriers is. -/
theorem tainted_standard [Enumeration] {env : Environment} {t : Tag} {x : Operand}
    (h : env.Holds t x) (hx : x.isLiteral = false) (caller : Method) {i : Instruction}
    (hmem : x ∈ i.carriers) : ∀ w ∈ (standard env caller i).writes, Tainted t w.2 := by
  intro w hw
  cases i with
  | identity target parameter => simp [Instruction.carriers] at hmem
  | create target className => simp [Instruction.carriers] at hmem
  | assign target source =>
    rw [List.mem_singleton.1 hw]
    obtain rfl := List.mem_singleton.1 hmem
    exact h.copied hx _
  | fieldRead target base field =>
    rw [List.mem_singleton.1 hw]
    exact h.makeIn hx hmem rfl
  | binary target operator left right =>
    rw [List.mem_singleton.1 hw]
    exact h.makeIn hx hmem rfl
  | invoke result method receiver arguments =>
    exact tainted_ofCall h hx caller rfl result hmem w hw
  | giveBack value =>
    cases value with
    | none => simp [Instruction.carriers] at hmem
    | some value =>
      rw [List.mem_singleton.1 hw]
      obtain rfl := List.mem_singleton.1 hmem
      exact h.copied hx _

theorem tainted_source [Enumeration] (env : Environment) (caller : Method) {method : Method}
    {t : Tag} (h : method.knownName.sourceTag? = some t) (result receiver : Option Operand)
    (arguments : List Operand) :
    ∀ w ∈ (standard env caller (.invoke result method receiver arguments)).writes,
      Tainted t w.2 := by
  intro w hw
  have hcall : (CallSite.named method receiver arguments).knownName.sourceTag? = some t := h
  have hvalues := values_ofCall (CallSite.named method receiver arguments) hw
  rw [CallSite.verdict_of_source h] at hvalues
  rw [hvalues, CallSite.modelValues_of_source env hcall]
  exact (Tainted.singleton rfl (TagSet.mem_insert.2 (Or.inr rfl))).distinct

end Effect

end Provenance
