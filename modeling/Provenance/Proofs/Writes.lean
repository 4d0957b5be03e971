import Provenance.Proofs.Recognition
import Provenance.Proofs.WellFormed

set_option autoImplicit false

namespace Provenance

def CallSite.targets (call : CallSite) (result : Option Operand) : List Operand :=
  match call.verdict with
  | .faulty => result.toList
  | .unmodelled =>
    match call.receiver, call.method.isConstructor with
    | some base, true => [base]
    | _, _ => result.toList
  | .modelled =>
    (if call.knownName.updatesReceiver then call.receiver.toList else []) ++ result.toList

def CallSite.named (method : Method) (receiver : Option Operand) (arguments : List Operand) :
    CallSite :=
  ⟨method, method.knownName, receiver, arguments⟩

theorem Method.isMalformed_of_known {m : Method} (hu : m.knownName ≠ .unmodelled)
    (hf : m.knownName ≠ .format) : m.isMalformed = false := by
  by_contra hm
  have hnone := Method.modelled?_of_isMalformed (by simpa using hm)
  simp only [Method.knownName, hnone, Option.getD_none] at hu hf
  split at hf
  · exact hf rfl
  · rename_i hname
    rw [if_neg hname] at hu
    exact hu rfl

theorem CallSite.verdict_of_known {method : Method} (hu : method.knownName ≠ .unmodelled)
    (hf : method.knownName ≠ .format) {receiver : Option Operand}
    (hr : method.knownName.needsReceiver = true → receiver.isSome = true)
    (arguments : List Operand) :
    (CallSite.named method receiver arguments).verdict = .modelled := by
  have hneeded : (method.knownName.needsReceiver && receiver.isNone) = false := by
    cases hn : method.knownName.needsReceiver with
    | false => rfl
    | true => simpa using hr hn
  rw [CallSite.verdict_eq_modelled]
  simp [CallSite.isFaulty, CallSite.isUnmodelled, CallSite.named, Method.isMalformed_of_known hu hf,
    hneeded, hu, hf]

theorem CallSite.verdict_of_source {method : Method} {t : Tag}
    (h : method.knownName.sourceTag? = some t) (receiver : Option Operand)
    (arguments : List Operand) :
    (CallSite.named method receiver arguments).verdict = .modelled := by
  apply CallSite.verdict_of_known <;> intro hk
  · simp [hk, KnownName.sourceTag?] at h
  · simp [hk, KnownName.sourceTag?] at h
  · cases hname : method.knownName <;> simp [hname, KnownName.sourceTag?] at h <;>
      simp [hname, KnownName.needsReceiver] at hk

/-- The operands that an instruction names as written. Writes to literals come to nothing. -/
def Instruction.targets : Instruction → List Operand
  | .identity target _ | .assign target _ | .fieldRead target _ _ | .binary target _ _ _
  | .create target _ => [target]
  | .invoke result method receiver arguments =>
    (CallSite.named method receiver arguments).targets result
  | .giveBack none => []
  | .giveBack (some _) => [.returnSlot]

namespace Effect

def standard [Enumeration] (env : Environment) (caller : Method) (i : Instruction) : Effect :=
  ofInstruction Recognizer.standard Method.knownName env caller i

theorem ofCall_standard [Enumeration] (env : Environment) (caller : Method) (call : CallSite)
    (result : Option Operand) :
    ofCall Recognizer.standard env caller call result =
      match call.verdict with
      | .faulty => ofWrites (result.toList.map fun o => (o, [.unknownFor o]))
      | .unmodelled => ofUnmodelled env caller call result
      | .modelled => ofModelled call result (SymbolicValue.distinct (call.modelValues env)) := by
  unfold ofCall
  rw [call.recognize_standard env]
  cases call.verdict <;> rfl

theorem targets_ofCall [Enumeration] (env : Environment) (caller : Method) (call : CallSite)
    (result : Option Operand) :
    (ofCall Recognizer.standard env caller call result).writes.map (·.1) = call.targets result := by
  rw [ofCall_standard]
  unfold CallSite.targets
  cases call.verdict with
  | faulty => simp [ofWrites, Function.comp_def]
  | unmodelled =>
    cases hr : call.receiver <;> cases hc : call.method.isConstructor <;>
      simp [ofUnmodelled, hr, hc, Function.comp_def]
  | modelled => simp [ofModelled, ofWrites, Function.comp_def]

theorem values_ofCall [Enumeration] {env : Environment} {caller : Method} (call : CallSite)
    {result : Option Operand} {w : Operand × List SymbolicValue}
    (hw : w ∈ (ofCall Recognizer.standard env caller call result).writes) :
    w.2 =
      match call.verdict with
      | .faulty => [.unknownFor w.1]
      | .unmodelled =>
        if call.receiver.isSome && call.method.isConstructor then
          [.makeIn env (.object call.method.className call.arguments)]
        else [call.describeIn env]
      | .modelled => SymbolicValue.distinct (call.modelValues env) := by
  rw [ofCall_standard] at hw
  cases hv : call.verdict with
  | faulty =>
    rw [hv] at hw
    obtain ⟨o, _, rfl⟩ := List.mem_map.1 hw
    rfl
  | unmodelled =>
    rw [hv] at hw
    cases hr : call.receiver with
    | none =>
      simp only [ofUnmodelled, hr] at hw
      obtain ⟨o, _, rfl⟩ := List.mem_map.1 hw
      rfl
    | some base =>
      cases hc : call.method.isConstructor with
      | true =>
        simp only [ofUnmodelled, hr, hc] at hw
        rw [List.mem_singleton.1 hw]
        rfl
      | false =>
        simp only [ofUnmodelled, hr, hc] at hw
        obtain ⟨o, _, rfl⟩ := List.mem_map.1 hw
        rfl
  | modelled =>
    rw [hv] at hw
    obtain ⟨o, _, rfl⟩ := List.mem_map.1 hw
    rfl

theorem targets_standard [Enumeration] (env : Environment) (caller : Method) (i : Instruction) :
    (standard env caller i).writes.map (·.1) = i.targets := by
  cases i with
  | invoke result method receiver arguments => exact targets_ofCall env caller _ result
  | giveBack value => cases value <;> rfl
  | _ => rfl

theorem returns_standard [Enumeration] (env : Environment) (caller : Method)
    (result : Option Operand) (method : Method) (receiver : Option Operand)
    (arguments : List Operand) :
    (standard env caller (.invoke result method receiver arguments)).returns = [] := by
  have hcall := ofCall_standard env caller (.named method receiver arguments) result
  refine (congrArg Effect.returns hcall).trans ?_
  cases (CallSite.named method receiver arguments).verdict <;> rfl

theorem flows_standard [Enumeration] (env : Environment) (caller : Method)
    (result : Option Operand) (method : Method) (receiver : Option Operand)
    (arguments : List Operand) :
    (standard env caller (.invoke result method receiver arguments)).flows =
      if (CallSite.named method receiver arguments).verdict = .unmodelled then
        flowsInto env caller (.named method receiver arguments)
      else [] := by
  have hcall := ofCall_standard env caller (.named method receiver arguments) result
  refine (congrArg Effect.flows hcall).trans ?_
  cases (CallSite.named method receiver arguments).verdict <;> rfl

theorem exists_operand_of_flow [Enumeration] {env : Environment} {caller : Method}
    {i : Instruction} {f : Flow} (hf : f ∈ (standard env caller i).flows) :
    ∃ o, (env.tagsOf o).isEmpty = false ∧ f.argument = o.text ∧ f.tags = (env.tagsOf o).toList := by
  cases i with
  | invoke result method receiver arguments =>
    rw [flows_standard] at hf
    split at hf
    · obtain ⟨o, _, ho⟩ := List.mem_filterMap.1 hf
      obtain ⟨htagged, rfl⟩ : (env.tagsOf o).isEmpty = false ∧ _ = f := by
        simpa using Option.ite_none_left_eq_some.1 ho
      exact ⟨o, htagged, rfl, rfl⟩
    · simp at hf
  | giveBack value => cases value <;> simp [standard, ofInstruction, nothing, ofReturn] at hf
  | _ => simp [standard, ofInstruction, write, ofWrites] at hf

end Effect

/-- Whether a lookup of an operand after some writes finds one of them: a write to the operand
itself, or, if it has no history of its own, to one that prints the same. -/
def Environment.Finds (env : Environment) (targets : List Operand) (o : Operand) : Prop :=
  ∃ w ∈ targets, w.isLiteral = false ∧
    (w = o ∨ env.histories.get? o = none ∧ w.text = o.text)

instance (env : Environment) (targets : List Operand) (o : Operand) :
    Decidable (env.Finds targets o) :=
  inferInstanceAs (Decidable (∃ w ∈ targets, w.isLiteral = false ∧
    (w = o ∨ env.histories.get? o = none ∧ w.text = o.text)))

theorem Environment.resolve?_of_history {env : Environment} {o : Operand} {history : History}
    (h : env.histories.get? o = some history) : env.resolve? o = history.latest? none := by
  simp [Environment.resolve?, Environment.get?, h]

theorem Environment.resolve?_by_text {env : Environment} {o k : Operand} {history : History}
    (ho : env.histories.get? o = none) (hk : env.byText.get? o.text = some k)
    (h : env.histories.get? k = some history) : env.resolve? o = history.latest? none := by
  simp [Environment.resolve?, Environment.get?, ho, hk, h]

theorem History.latest?_record (h : History) (condition : Option Condition)
    (values : List SymbolicValue) : (h.record condition values).latest? none = some values := by
  simp [History.latest?, History.record, History.isCoherent]

namespace Visit

theorem writeAll_literal (env : Environment) (condition : Option Condition)
    {w : Operand × List SymbolicValue} (rest : List (Operand × List SymbolicValue))
    (h : w.1.isLiteral = true) :
    writeAll env condition (w :: rest) = writeAll env condition rest := by
  simp [writeAll, h]

theorem writeAll_cons (env : Environment) (condition : Option Condition)
    {w : Operand × List SymbolicValue} (rest : List (Operand × List SymbolicValue))
    (h : w.1.isLiteral = false) :
    writeAll env condition (w :: rest) =
      writeAll (env.update w.1 w.2 condition) condition rest := by
  simp [writeAll, h]

theorem histories_writeAll_of_unwritten (env : Environment) (condition : Option Condition)
    {writes : List (Operand × List SymbolicValue)} {o : Operand}
    (h : ∀ w ∈ writes, w.1.isLiteral = false → w.1 ≠ o) :
    (writeAll env condition writes).histories.get? o = env.histories.get? o := by
  induction writes generalizing env with
  | nil => rfl
  | cons w rest ih =>
    have hrest : ∀ u ∈ rest, u.1.isLiteral = false → u.1 ≠ o := fun u hu => h u (by simp [hu])
    cases hl : w.1.isLiteral with
    | true => rw [writeAll_literal env condition rest hl, ih env hrest]
    | false =>
      have hne : o ≠ w.1 := fun e => h w (by simp) hl e.symm
      rw [writeAll_cons env condition rest hl, ih _ hrest, Environment.histories_update, if_neg hne]

theorem histories_writeAll_of_written (env : Environment) (condition : Option Condition)
    {writes : List (Operand × List SymbolicValue)} {o : Operand} (hl : o.isLiteral = false)
    (h : o ∈ writes.map (·.1)) :
    ∃ values history, (o, values) ∈ writes ∧
      (writeAll env condition writes).histories.get? o = some history ∧
      history.latest? none = some (Environment.collapse env.limit o values) := by
  induction writes generalizing env with
  | nil => simp at h
  | cons w rest ih =>
    by_cases hrest : o ∈ rest.map (·.1)
    · cases hw : w.1.isLiteral with
      | true =>
        obtain ⟨values, history, hmem, hget, hlatest⟩ := ih env hrest
        rw [← writeAll_literal env condition rest hw] at hget
        exact ⟨values, history, by simp [hmem], hget, hlatest⟩
      | false =>
        obtain ⟨values, history, hmem, hget, hlatest⟩ := ih (env.update w.1 w.2 condition) hrest
        rw [← writeAll_cons env condition rest hw] at hget
        exact ⟨values, history, by simp [hmem], hget, hlatest⟩
    · have ho : o = w.1 := by
        rcases List.mem_cons.1 h with h | h
        · exact h
        · contradiction
      subst ho
      have hlater : ∀ u ∈ rest, u.1.isLiteral = false → u.1 ≠ w.1 := by
        intro u hu _ heq
        exact hrest (List.mem_map.2 ⟨u, hu, heq⟩)
      have hget : (writeAll env condition (w :: rest)).histories.get? w.1 =
          some (((env.histories.get? w.1).getD .empty).record condition
            (Environment.collapse env.limit w.1 w.2)) := by
        rw [writeAll_cons env condition rest hl, histories_writeAll_of_unwritten _ condition hlater,
          Environment.histories_update, if_pos rfl]
      exact ⟨w.2, _, by simp, hget, History.latest?_record _ condition _⟩

theorem byText_writeAll (env : Environment) (condition : Option Condition)
    (writes : List (Operand × List SymbolicValue)) (text : String) :
    (∃ o ∈ writes.map (·.1), o.isLiteral = false ∧ o.text = text ∧
      (writeAll env condition writes).byText.get? text = some o) ∨
    (∀ o ∈ writes.map (·.1), o.isLiteral = false → o.text ≠ text) ∧
      (writeAll env condition writes).byText.get? text = env.byText.get? text := by
  induction writes generalizing env with
  | nil => exact Or.inr ⟨by simp, rfl⟩
  | cons w rest ih =>
    cases hw : w.1.isLiteral with
    | true =>
      rw [writeAll_literal env condition rest hw]
      rcases ih env with ⟨o, ho, hfound⟩ | ⟨hnone, hsame⟩
      · exact Or.inl ⟨o, by simp [ho], hfound⟩
      · refine Or.inr ⟨?_, hsame⟩
        intro o ho hl
        rcases List.mem_cons.1 ho with rfl | ho
        · simp [hw] at hl
        · exact hnone o ho hl
    | false =>
      rw [writeAll_cons env condition rest hw]
      rcases ih (env.update w.1 w.2 condition) with ⟨o, ho, hfound⟩ | ⟨hnone, hsame⟩
      · exact Or.inl ⟨o, by simp [ho], hfound⟩
      · rw [Environment.byText_update] at hsame
        by_cases htext : text = w.1.text
        · rw [if_pos htext] at hsame
          exact Or.inl ⟨w.1, by simp, hw, htext.symm, hsame⟩
        · rw [if_neg htext] at hsame
          refine Or.inr ⟨?_, hsame⟩
          intro o ho hl
          rcases List.mem_cons.1 ho with rfl | ho
          · exact fun e => htext e.symm
          · exact hnone o ho hl

theorem resolve?_writeAll_of_finds {env : Environment} (condition : Option Condition)
    {writes : List (Operand × List SymbolicValue)} {o : Operand}
    (h : env.Finds (writes.map (·.1)) o) :
    ∃ w ∈ writes, (writeAll env condition writes).resolve? o =
      some (Environment.collapse env.limit w.1 w.2) := by
  by_cases hown : o ∈ writes.map (·.1) ∧ o.isLiteral = false
  · obtain ⟨values, history, hmem, hget, hlatest⟩ :=
      histories_writeAll_of_written env condition hown.2 hown.1
    exact ⟨_, hmem, (Environment.resolve?_of_history hget).trans hlatest⟩
  · have hother : ∀ w ∈ writes, w.1.isLiteral = false → w.1 ≠ o := by
      rintro w hw hl rfl
      exact hown ⟨List.mem_map.2 ⟨w, hw, rfl⟩, hl⟩
    obtain ⟨w, hw, hl, hfound⟩ := h
    have hprinted : env.histories.get? o = none ∧ w.text = o.text := by
      rcases hfound with rfl | hfound
      · exact absurd ⟨hw, hl⟩ hown
      · exact hfound
    have hstill : (writeAll env condition writes).histories.get? o = none := by
      rw [histories_writeAll_of_unwritten env condition hother, hprinted.1]
    rcases byText_writeAll env condition writes o.text with ⟨k, hk, hkl, _, hindex⟩ | ⟨hnone, _⟩
    · obtain ⟨values, history, hmem, hget, hlatest⟩ :=
        histories_writeAll_of_written env condition hkl hk
      exact ⟨_, hmem, (Environment.resolve?_by_text hstill hindex hget).trans hlatest⟩
    · exact absurd hprinted.2 (hnone w hw hl)

/-- A lookup that finds none of the writes gives what it gave before. This rests on the index: what
it names for a text prints as that text. -/
theorem resolve?_writeAll_of_not_finds {env : Environment} (condition : Option Condition)
    {writes : List (Operand × List SymbolicValue)} {o : Operand}
    (hindex : ∀ k, env.byText.get? o.text = some k → k.text = o.text)
    (h : ¬ env.Finds (writes.map (·.1)) o) :
    (writeAll env condition writes).resolve? o = env.resolve? o := by
  have hkeep : ∀ k, (k = o ∨ env.histories.get? o = none ∧ k.text = o.text) →
      (writeAll env condition writes).histories.get? k = env.histories.get? k := by
    intro k hk
    apply histories_writeAll_of_unwritten
    rintro w hw hl rfl
    exact h ⟨w.1, List.mem_map.2 ⟨w, hw, rfl⟩, hl, hk⟩
  cases hown : env.histories.get? o with
  | some history =>
    rw [Environment.resolve?_of_history hown]
    exact Environment.resolve?_of_history ((hkeep o (Or.inl rfl)).trans hown)
  | none =>
    have hsame : (writeAll env condition writes).byText.get? o.text = env.byText.get? o.text := by
      rcases byText_writeAll env condition writes o.text with ⟨w, hw, hl, htext, _⟩ | ⟨_, hsame⟩
      · exact absurd ⟨w, hw, hl, Or.inr ⟨hown, htext⟩⟩ h
      · exact hsame
    have hstill := (hkeep o (Or.inl rfl)).trans hown
    simp only [Environment.resolve?, Environment.get?, hstill, hown, hsame]
    cases hk : env.byText.get? o.text with
    | none => rfl
    | some k => simp [hkeep k (Or.inr ⟨hown, hindex k hk⟩)]

theorem environment_step [Enumeration] (caller : Method) (v : Visit) (s : Statement) :
    (v.step Recognizer.standard caller s).environment =
      writeAll v.environment s.guard
        (Effect.standard v.environment caller s.instruction).writes := by
  simp [step, perform, Effect.standard]

theorem resolve?_step_of_same_values [Enumeration] (caller : Method) {v : Visit}
    (hlimit : 1 ≤ v.environment.limit) {s : Statement} {o : Operand} (hl : o.isLiteral = false)
    (htarget : o ∈ s.instruction.targets) {value : SymbolicValue}
    (hwrites : ∀ w ∈ (Effect.standard v.environment caller s.instruction).writes,
      w.2 = [value]) :
    (v.step Recognizer.standard caller s).environment.resolve? o = some [value] := by
  rw [← Effect.targets_standard v.environment caller] at htarget
  obtain ⟨values, history, hmem, hget, hlatest⟩ :=
    histories_writeAll_of_written v.environment s.guard hl htarget
  have hvalues : values = [value] := hwrites _ hmem
  rw [hvalues, Environment.collapse_of_le o hlimit] at hlatest
  rw [environment_step, Environment.resolve?_of_history hget, hlatest]

theorem returns_step [Enumeration] (caller : Method) (v : Visit) (s : Statement) :
    (v.step Recognizer.standard caller s).returns =
      (Effect.standard v.environment caller s.instruction).returns.foldl SymbolicValue.addResult
        v.returns := by
  simp [step, perform, Effect.standard]

theorem flows_step [Enumeration] (caller : Method) (v : Visit) (s : Statement) :
    (v.step Recognizer.standard caller s).flows =
      v.flows ++ (Effect.standard v.environment caller s.instruction).flows := by
  simp [step, perform, Effect.standard]

end Visit

end Provenance
