import Provenance.Proofs.Writes

set_option autoImplicit false

namespace Provenance

theorem Operand.isLiteral_of_dateFormat {o : Operand} (h : isDateFormatType o.staticType = true) :
    o.isLiteral = false := by
  cases o with
  | named name type => rfl
  | returnSlot => rfl
  | literal c =>
    exfalso
    revert h
    cases c <;> simp [Operand.staticType, Constant.staticType, isDateFormatType]

namespace CallSite

def modelTags (call : CallSite) (env : Environment) : Set Tag :=
  match call.knownName with
  | .append | .concat =>
    match call.receiver, call.arguments with
    | some base, [argument] => env.tagsAt base ∪ env.tagsAt argument
    | _, _ => env.tagsAmong call.operands
  | .construct =>
    match call.arguments with
    | [] => ∅
    | [argument] =>
      match argument.literal? with
      | some (.str _) => ∅
      | literal =>
        if call.isCapacity argument then ∅
        else if literal.isSome then env.tagsAmong call.receiver.toList
        else env.tagsAt argument
    | _ => env.tagsAmong call.operands
  -- Candidates of the receiver that fold to a constant leave their tags behind.
  | .substring =>
    {t | ∃ base ∈ call.receiver, ∃ v ∈ env.resolveOrUnknown base,
      v.constant?.bind (Recognizer.cut? (Recognizer.positions? call.arguments)) = none ∧
        t ∈ v.tags} ∪ env.tagsAmong call.arguments
  | .valueOf =>
    match call.arguments with
    | [argument] => if argument.isLiteral then ∅ else env.tagsAt argument
    | _ => env.tagsAmong call.operands
  | .format => {t | ∃ o ∈ call.operands, t ∈ env.tagsAt o}
  | .toLowerCase | .toText => {t | ∃ base ∈ call.receiver, t ∈ env.tagsAt base}
  | name => {t | name.sourceTag? = some t} ∪ env.tagsAmong call.operands

def transfer (call : CallSite) (env : Environment) : Set Tag :=
  match call.verdict with
  | .faulty => ∅
  | .unmodelled =>
    if call.receiver.isSome && call.method.isConstructor then env.tagsAmong call.arguments
    else env.tagsAmong call.operands
  | .modelled => call.modelTags env

end CallSite

/-- The tags of what an instruction writes, from those that the environment has before it. -/
def Instruction.transfer (env : Environment) : Instruction → Set Tag
  | .identity _ _ | .create _ _ => ∅
  | .assign _ source => env.tagsAmong [source]
  | .fieldRead _ base _ => env.tagsAmong [base]
  | .binary _ _ left right => env.tagsAmong [left, right]
  | .invoke _ method receiver arguments => (CallSite.named method receiver arguments).transfer env
  | .giveBack value => env.tagsAmong value.toList

namespace Recognizer

theorem valueTags_propagate (env : Environment) (o : Operand) {values : List SymbolicValue}
    (h : values ≠ []) :
    valueTags (propagate env o values) = valueTags values ∪ env.tagsAt o := by
  ext t
  simp only [propagate, mem_valueTags, List.mem_map, Set.mem_union]
  constructor
  · rintro ⟨_, ⟨v, hv, rfl⟩, ht⟩
    rcases TagSet.mem_union.1 ht with ht | ht
    · exact Or.inl ⟨v, hv, ht⟩
    · exact Or.inr ht
  · rintro (⟨v, hv, ht⟩ | ht)
    · exact ⟨_, ⟨v, hv, rfl⟩, TagSet.mem_union.2 (Or.inl ht)⟩
    · obtain ⟨v, hv⟩ := List.exists_mem_of_ne_nil values h
      exact ⟨_, ⟨v, hv, rfl⟩, TagSet.mem_union.2 (Or.inr ht)⟩

theorem valueTags_passOn (env : Environment) (o : Operand) :
    valueTags (passOn env o) = env.tagsAt o := by
  rw [passOn, valueTags_propagate env o (env.resolveOrUnknown_ne_nil o),
    env.valueTags_resolveOrUnknown, Set.union_eq_right]
  exact env.tagsAmong_singleton_subset o

theorem valueTags_foldl_propagate (env : Environment) (os : List Operand)
    {values : List SymbolicValue} (h : values ≠ []) :
    valueTags (os.foldl (fun values a => propagate env a values) values) =
      valueTags values ∪ {t | ∃ o ∈ os, t ∈ env.tagsAt o} := by
  induction os generalizing values with
  | nil => simp
  | cons o rest ih =>
    rw [List.foldl_cons, ih (propagate_ne_nil env o h), valueTags_propagate env o h]
    ext t
    simp [or_assoc]

/-- The tags over all candidates of a receiver, where no candidate folds if there is an argument
that is not a literal. -/
theorem valueTags_foldOrDescribe [Enumeration] (call : CallSite) (env : Environment)
    (base : Operand) (arguments : List Operand) (fold : Constant → Option Constant)
    (hfold : ∀ a ∈ arguments, a.isLiteral = false → ∀ c, fold c = none) :
    valueTags ((env.resolveOrUnknown base).map
        (foldOrDescribe call (env.capture arguments) base fold)) =
      {t | ∃ v ∈ env.resolveOrUnknown base, v.constant?.bind fold = none ∧ t ∈ v.tags} ∪
        env.tagsAmong arguments := by
  ext t
  simp only [mem_valueTags, List.mem_map, Set.mem_union, Set.mem_ofPred_eq]
  constructor
  · rintro ⟨_, ⟨v, hv, rfl⟩, ht⟩
    cases hc : v.constant?.bind fold with
    | some c => simp [foldOrDescribe_of_some call _ base hc, SymbolicValue.constant,
        SymbolicValue.leaf] at ht
    | none =>
      rw [foldOrDescribe_of_none call _ base hc] at ht
      rcases Snapshot.mem_tags_insert ht with ht | ht
      · rw [valueTags_singleton] at ht
        exact Or.inl ⟨v, hv, hc, ht⟩
      · exact Or.inr (Environment.mem_tags_capture.1 ht)
  · rintro (⟨v, hv, hc, ht⟩ | ht)
    · refine ⟨_, ⟨v, hv, rfl⟩, ?_⟩
      rw [foldOrDescribe_of_none call _ base hc]
      exact Snapshot.mem_tags_insert_self _ base (by rwa [valueTags_singleton])
    · obtain ⟨a, ha, hl, ht⟩ := Environment.mem_tagsAmong.1 ht
      have hnone : ∀ v : SymbolicValue, v.constant?.bind fold = none := by
        intro v
        cases v.constant? with
        | none => rfl
        | some c => exact hfold a ha hl c
      by_cases hab : a = base
      · -- The entry of the argument is replaced, but every candidate has its turn.
        subst hab
        have hcand : t ∈ valueTags (env.resolveOrUnknown a) := by
          rwa [env.valueTags_resolveOrUnknown, env.tagsAmong_singleton hl]
        obtain ⟨v, hv, ht⟩ := mem_valueTags.1 hcand
        refine ⟨_, ⟨v, hv, rfl⟩, ?_⟩
        rw [foldOrDescribe_of_none call _ a (hnone v)]
        exact Snapshot.mem_tags_insert_self _ a (by rwa [valueTags_singleton])
      · obtain ⟨v, hv⟩ := List.exists_mem_of_ne_nil _ (env.resolveOrUnknown_ne_nil base)
        refine ⟨_, ⟨v, hv, rfl⟩, ?_⟩
        rw [foldOrDescribe_of_none call _ base (hnone v)]
        cases hr : env.resolve? a with
        | none => simp [Environment.tagsAt_eq, hr] at ht
        | some values =>
          rw [Environment.tagsAt_of_resolve? hr] at ht
          have hentry : (a, values) ∈ (env.capture arguments).entries :=
            Environment.mem_capture.2 ⟨ha, hl, hr⟩
          exact Snapshot.mem_tags_insert_of_ne hentry hab ht

theorem valueTags_cuts [Enumeration] (call : CallSite) (env : Environment) (base : Operand) :
    valueTags (call.cuts env base) =
      {t | ∃ v ∈ env.resolveOrUnknown base,
        v.constant?.bind (cut? (positions? call.arguments)) = none ∧ t ∈ v.tags} ∪
        env.tagsAmong call.arguments := by
  apply valueTags_foldOrDescribe
  intro a ha hl c
  rw [positions?_eq_none ha hl]
  rfl

theorem valueTags_appended [Enumeration] (call : CallSite) (env : Environment)
    (base argument : Operand) :
    valueTags (appended call env base argument) = env.tagsAt base ∪ env.tagsAt argument := by
  have hfold : ∀ a ∈ [argument], a.isLiteral = false →
      ∀ c : Constant, argument.literal?.map c.concat = none := by
    intro a ha hl c
    rw [List.mem_singleton.1 ha] at hl
    simpa [Operand.isLiteral] using hl
  have hbuilt := valueTags_foldOrDescribe call env base [argument] _ hfold
  have hne : (env.resolveOrUnknown base).map (foldOrDescribe call (env.capture [argument]) base
      fun c => argument.literal?.map c.concat) ≠ [] := by
    simpa using env.resolveOrUnknown_ne_nil base
  rw [appended, valueTags_propagate env argument (propagate_ne_nil env base hne),
    valueTags_propagate env base hne, hbuilt]
  -- What the descriptions contribute is contributed by the propagation anyway.
  apply Set.Subset.antisymm
  · apply Set.union_subset
    · apply Set.union_subset
      · apply Set.union_subset
        · rintro t ⟨v, hv, _, ht⟩
          have hbase : t ∈ env.tagsAmong [base] := by
            rw [← env.valueTags_resolveOrUnknown]
            exact ⟨v, hv, ht⟩
          exact Or.inl (env.tagsAmong_singleton_subset base hbase)
        · exact fun t ht => Or.inr (env.tagsAmong_singleton_subset argument ht)
      · exact Set.subset_union_left
    · exact Set.subset_union_right
  · rintro t (ht | ht)
    · exact Or.inl (Or.inr ht)
    · exact Or.inr ht

/-- What a constructor is given is a capacity in the model exactly if it is one by the classes. -/
theorem valueTags_constructed [Enumeration] {call : CallSite} (env : Environment)
    (hname : call.knownName = call.method.knownName) (h : call.knownName = .construct) :
    valueTags (constructed call env) = call.modelTags env := by
  have hbuilder := Method.builder_of_construct (hname.symm.trans h)
  have hcapacity : ∀ a : Operand,
      (a.staticType = "int" ∧ call.method.className ≠ KnownName.stringClass) ↔
        call.isCapacity a = true := by
    intro a
    simp [CallSite.isCapacity, hbuilder]
  simp only [constructed, CallSite.modelTags, h, hcapacity]
  rcases hargs : call.arguments with _ | ⟨a, _ | ⟨b, rest⟩⟩
  · simp
  · cases hl : a.literal? with
    | none => cases hcap : call.isCapacity a <;> simp [hl, hcap, valueTags_passOn]
    | some c =>
      have hlit : a.isLiteral = true := by simp [Operand.isLiteral, hl]
      have hops : env.tagsAmong call.operands = env.tagsAmong call.receiver.toList := by
        ext t
        simp [CallSite.operands, hargs, Environment.mem_tagsAmong, hlit]
      cases c with
      | str text => simp [hl]
      | _ => cases hcap : call.isCapacity a <;> simp [hl, hcap, env.valueTags_describeIn, hops]
  · simp [env.valueTags_describeIn]

end Recognizer

theorem CallSite.valueTags_modelValues [Enumeration] {call : CallSite} (env : Environment)
    (hname : call.knownName = call.method.knownName) (h : call.verdict = .modelled) :
    valueTags (call.modelValues env) = call.modelTags env := by
  cases hk : call.knownName with
  | unmodelled => simp [CallSite.isUnmodelled, hk, CallSite.verdict_eq_modelled] at h
  | smsBody | smsSender | smsDisplayBody | smsDisplaySender =>
    ext t
    have hdescribed : t ∈ (call.describeIn env).tags ↔ t ∈ env.tagsAmong call.operands :=
      Environment.mem_tags_capture
    simp [CallSite.modelValues, CallSite.modelTags, hk, KnownName.sourceTag?, mem_valueTags,
      hdescribed, or_comm, eq_comm]
  | construct =>
    rw [← Recognizer.valueTags_constructed env hname hk]
    simp [CallSite.modelValues, hk]
  | append | concat =>
    rcases hr : call.receiver with _ | base <;>
      rcases hargs : call.arguments with _ | ⟨a, _ | ⟨b, rest⟩⟩ <;>
      simp [CallSite.modelValues, CallSite.modelTags, hk, hr, hargs, env.valueTags_describeIn,
        Recognizer.valueTags_appended]
  | valueOf =>
    rcases hargs : call.arguments with _ | ⟨a, _ | ⟨b, rest⟩⟩
    · simp [CallSite.modelValues, CallSite.modelTags, hk, hargs, env.valueTags_describeIn]
    · cases hl : a.literal? <;>
        simp [CallSite.modelValues, CallSite.modelTags, hk, hargs, Operand.isLiteral, hl,
          Recognizer.valueTags_passOn]
    · simp [CallSite.modelValues, CallSite.modelTags, hk, hargs, env.valueTags_describeIn]
  | substring =>
    obtain ⟨base, hr⟩ := CallSite.exists_receiver_of_modelled h (by rw [hk]; rfl)
    simp [CallSite.modelValues, CallSite.modelTags, hk, hr, Recognizer.valueTags_cuts]
  | toLowerCase | toText =>
    obtain ⟨base, hr⟩ := CallSite.exists_receiver_of_modelled h (by rw [hk]; rfl)
    simp [CallSite.modelValues, CallSite.modelTags, hk, hr, Recognizer.valueTags_passOn]
  | format =>
    obtain ⟨base, hr, hdate⟩ := CallSite.exists_dateFormat_of_modelled h hk
    have hl := Operand.isLiteral_of_dateFormat hdate
    have hprop := Recognizer.valueTags_foldl_propagate env call.arguments
      (env.resolveOrUnknown_ne_nil base)
    rw [env.valueTags_resolveOrUnknown, env.tagsAmong_singleton hl] at hprop
    ext t
    simp [CallSite.modelValues, CallSite.modelTags, CallSite.operands, hk, hr, hprop]

namespace Effect

theorem valueTags_ofCall [Enumeration] (env : Environment) (caller : Method) {call : CallSite}
    (hname : call.knownName = call.method.knownName) (result : Option Operand) :
    ∀ w ∈ (ofCall Recognizer.standard env caller call result).writes,
      valueTags w.2 = call.transfer env := by
  intro w hw
  rw [values_ofCall call hw]
  unfold CallSite.transfer
  cases hv : call.verdict with
  | faulty => simp [SymbolicValue.unknownFor_eq]
  | unmodelled =>
    by_cases hobject : (call.receiver.isSome && call.method.isConstructor) = true
    · simp only [hobject, if_true]
      exact env.valueTags_makeIn _
    · simp only [hobject]
      exact env.valueTags_describeIn call
  | modelled =>
    rw [valueTags_distinct]
    exact CallSite.valueTags_modelValues env hname hv

theorem valueTags_standard [Enumeration] (env : Environment) (caller : Method) (i : Instruction) :
    ∀ w ∈ (standard env caller i).writes, valueTags w.2 = i.transfer env := by
  intro w hw
  cases i with
  | identity target parameter =>
    rw [List.mem_singleton.1 hw]
    exact valueTags_leaf _
  | assign target source =>
    rw [List.mem_singleton.1 hw]
    exact env.valueTags_copied source _
  | fieldRead target base field =>
    rw [List.mem_singleton.1 hw]
    exact env.valueTags_makeIn _
  | binary target operator left right =>
    rw [List.mem_singleton.1 hw]
    exact env.valueTags_makeIn _
  | create target className =>
    rw [List.mem_singleton.1 hw, env.valueTags_makeIn]
    exact env.tagsAmong_nil
  | invoke result method receiver arguments =>
    exact valueTags_ofCall env caller rfl result w hw
  | giveBack value =>
    cases value with
    | none => simp [standard, ofInstruction, nothing] at hw
    | some value =>
      rw [List.mem_singleton.1 hw]
      exact env.valueTags_copied value _

end Effect

/-- Whatever a body did so far, after one more statement every operand that a lookup refers to one
of the operands written has exactly the tags that the transfer of the instruction gives, and every
other operand has the tags it had. -/
theorem Visit.tagsAt_step [Enumeration] (names : KnownName.Cache) (limit : Nat) (body : Body)
    (n : Nat) (s : Statement) (o : Operand) :
    let v := Visit.upTo Recognizer.standard names limit body n
    (v.step Recognizer.standard body.method s).environment.tagsAt o =
      if v.environment.Finds s.instruction.targets o then s.instruction.transfer v.environment
      else v.environment.tagsAt o := by
  intro v
  have hshape : v.environment.WellFormed limit :=
    Visit.wellFormed_upTo Recognizer.standard names limit body n
  have htargets := Effect.targets_standard v.environment body.method s.instruction
  rw [Visit.environment_step]
  by_cases hfind : v.environment.Finds s.instruction.targets o
  · rw [if_pos hfind]
    rw [← htargets] at hfind
    obtain ⟨w, hw, hres⟩ := Visit.resolve?_writeAll_of_finds s.guard hfind
    rw [Environment.tagsAt_of_resolve? hres, valueTags_collapse]
    exact Effect.valueTags_standard v.environment body.method s.instruction w hw
  · rw [if_neg hfind]
    rw [← htargets] at hfind
    have hindex : ∀ k, v.environment.byText.get? o.text = some k → k.text = o.text := by
      intro k hk
      exact (hshape.recorded _ (Table.mem_of_get? hk)).2
    rw [Environment.tagsAt_eq, Environment.tagsAt_eq,
      Visit.resolve?_writeAll_of_not_finds s.guard hindex hfind]

end Provenance
