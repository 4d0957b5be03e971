import Provenance.Proofs.Writes

set_option autoImplicit false

namespace Provenance

def CallSite.written (call : CallSite) (result : Option Operand) : Recognition → List Operand
  | .ok (some _) =>
    (if call.knownName.updatesReceiver then call.receiver.toList else []) ++ result.toList
  | .ok none =>
    if call.method.isConstructor && call.receiver.isSome then call.receiver.toList
    else result.toList
  | .error _ => result.toList

/-- The operands that an instruction writes, in order. There are no literals among them, and an
operand may be written twice. -/
def Instruction.written (chain : Chain) (env : Environment) (i : Instruction) : List Operand :=
  let named :=
    match i with
    | .identity target _ | .assign target _ | .fieldRead target _ _ | .binary target _ _ _
    | .create target _ => [target]
    | .invoke result method receiver arguments =>
      let call := CallSite.named method receiver arguments
      call.written result (chain.recognize call env)
    | .giveBack none => []
    | .giveBack (some _) => [.returnSlot]
  named.filter fun o => !o.isLiteral

theorem CallSite.written_standard [Enumeration] (call : CallSite) (result : Option Operand)
    (env : Environment) :
    call.written result (Chain.recognize Recognizer.standard call env) = call.targets result := by
  rw [call.recognize_standard env]
  unfold CallSite.targets
  cases call.verdict with
  | faulty => rfl
  | unmodelled =>
    cases hr : call.receiver <;> cases hc : call.method.isConstructor <;>
      simp [CallSite.written, hr, hc]
  | modelled => rfl

theorem Instruction.written_standard [Enumeration] (env : Environment) (i : Instruction) :
    i.written Recognizer.standard env = i.targets.filter fun o => !o.isLiteral := by
  cases i with
  | invoke result method receiver arguments =>
    have hcall := (CallSite.named method receiver arguments).written_standard result env
    simp only [Instruction.written, Instruction.targets, hcall]
  | giveBack value => cases value <;> rfl
  | _ => rfl

def Instruction.Fails (chain : Chain) (env : Environment) : Instruction → Prop
  | .invoke _ method receiver arguments =>
    ∃ e, chain.recognize (CallSite.named method receiver arguments) env = .error e
  | _ => False

namespace Environment

def recorded (env : Environment) (o : Operand) : List (Option Condition × List SymbolicValue) :=
  ((env.histories.get? o).getD .empty).entries

theorem recorded_update (env : Environment) (o j : Operand) (values : List SymbolicValue)
    (condition : Option Condition) :
    (env.update o values condition).recorded j =
      if j = o then env.recorded o ++ [(condition, collapse env.limit o values)]
      else env.recorded j := by
  unfold recorded
  rw [histories_update]
  by_cases h : j = o <;> simp [h, History.record]

def updateAll (env : Environment) (condition : Option Condition)
    (given : Operand → List SymbolicValue) (targets : List Operand) : Environment :=
  targets.foldl (fun env o => env.update o (given o) condition) env

theorem recorded_updateAll (env : Environment) (condition : Option Condition)
    (given : Operand → List SymbolicValue) (targets : List Operand) (j : Operand) :
    (env.updateAll condition given targets).recorded j =
      env.recorded j ++ List.replicate (targets.count j)
        (condition, collapse env.limit j (given j)) := by
  unfold updateAll
  induction targets generalizing env with
  | nil => simp
  | cons o rest ih =>
    rw [List.foldl_cons, ih, recorded_update, limit_update]
    by_cases h : j = o
    · subst h
      simp [List.replicate_succ]
    · have hne : o ≠ j := fun e => h e.symm
      simp [h, hne]

theorem histories_updateAll_of_not_mem (env : Environment) (condition : Option Condition)
    (given : Operand → List SymbolicValue) {targets : List Operand} {j : Operand}
    (h : j ∉ targets) :
    (env.updateAll condition given targets).histories.get? j = env.histories.get? j := by
  unfold updateAll
  induction targets generalizing env with
  | nil => rfl
  | cons o rest ih =>
    have hne : j ≠ o := fun e => h (by simp [e])
    have hrest : j ∉ rest := fun e => h (by simp [e])
    rw [List.foldl_cons, ih _ hrest, histories_update, if_neg hne]

theorem collapse_unknownFor (limit : Nat) (o : Operand) :
    collapse limit o [SymbolicValue.unknownFor o] = [SymbolicValue.unknownFor o] := by
  by_cases h : limit < [SymbolicValue.unknownFor o].length
  · rw [collapse_of_lt o h]
    rfl
  · rw [collapse_of_le o (Nat.le_of_not_lt h)]

end Environment

namespace SymbolicValue

theorem exists_getElem?_addResult {results : List SymbolicValue} {p : Nat} {r : SymbolicValue}
    (h : results[p]? = some r) (v : SymbolicValue) :
    ∃ r', (addResult results v)[p]? = some r' ∧ r'.text = r.text ∧ ∀ t ∈ r.tags, t ∈ r'.tags := by
  induction results generalizing p with
  | nil => simp at h
  | cons first rest ih =>
    by_cases htext : first.text = v.text
    · simp only [addResult_cons, htext, if_true]
      cases p with
      | zero =>
        obtain rfl : first = r := by simpa using h
        exact ⟨_, rfl, rfl, fun t ht => TagSet.mem_union.2 (Or.inl ht)⟩
      | succ p => exact ⟨r, by simpa using h, rfl, fun t ht => ht⟩
    · simp only [addResult_cons, htext, if_false]
      cases p with
      | zero => exact ⟨r, by simpa using h, rfl, fun t ht => ht⟩
      | succ p =>
        have hrest : rest[p]? = some r := by simpa using h
        simpa using ih hrest

theorem exists_getElem?_foldl_addResult {results : List SymbolicValue} {p : Nat}
    {r : SymbolicValue} (h : results[p]? = some r) (values : List SymbolicValue) :
    ∃ r', (values.foldl addResult results)[p]? = some r' ∧ r'.text = r.text ∧
      ∀ t ∈ r.tags, t ∈ r'.tags := by
  induction values generalizing results r with
  | nil => exact ⟨r, h, rfl, fun t ht => ht⟩
  | cons v rest ih =>
    obtain ⟨r₁, hat, htext, htags⟩ := exists_getElem?_addResult h v
    obtain ⟨r₂, hat₂, htext₂, htags₂⟩ := ih hat
    exact ⟨r₂, hat₂, htext₂.trans htext, fun t ht => htags₂ t (htags t ht)⟩

end SymbolicValue

namespace Effect

theorem writes_ofCall [Enumeration] (chain : Chain) (env : Environment) (caller : Method)
    (call : CallSite) (result : Option Operand) :
    ∃ given : Operand → List SymbolicValue,
      (ofCall chain env caller call result).writes =
        (call.written result (chain.recognize call env)).map (fun o => (o, given o)) ∧
      ((∃ e, chain.recognize call env = .error e) → ∀ o, given o = [.unknownFor o]) := by
  unfold ofCall
  rcases hanswer : chain.recognize call env with e | _ | values
  · exact ⟨fun o => [.unknownFor o], rfl, fun _ _ => rfl⟩
  · cases hr : call.receiver with
    | none =>
      refine ⟨fun _ => [call.describeIn env], ?_, by simp⟩
      simp [ofUnmodelled, CallSite.written, hr]
    | some base =>
      cases hc : call.method.isConstructor with
      | true =>
        refine ⟨fun _ => [.makeIn env (.object call.method.className call.arguments)], ?_, by simp⟩
        simp [ofUnmodelled, CallSite.written, hr, hc]
      | false =>
        refine ⟨fun _ => [call.describeIn env], ?_, by simp⟩
        simp [ofUnmodelled, CallSite.written, hr, hc]
  · exact ⟨fun _ => values, rfl, by simp⟩

theorem flows_ofCall_of_error [Enumeration] {chain : Chain} {env : Environment} {call : CallSite}
    {e : CallError} (h : chain.recognize call env = .error e) (caller : Method)
    (result : Option Operand) : (ofCall chain env caller call result).flows = [] := by
  simp [ofCall, h, ofWrites]

end Effect

namespace Visit

open Environment

theorem writeAll_map (env : Environment) (condition : Option Condition)
    (given : Operand → List SymbolicValue) (targets : List Operand) :
    writeAll env condition (targets.map fun o => (o, given o)) =
      env.updateAll condition given (targets.filter fun o => !o.isLiteral) := by
  unfold writeAll updateAll
  rw [List.filter_map, List.foldl_map]
  rfl

/-- A statement carries out the writes of its list, in order, and no others. -/
theorem environment_step_eq_updateAll [Enumeration] (chain : Chain) (caller : Method) (v : Visit)
    (s : Statement) :
    ∃ given : Operand → List SymbolicValue,
      (v.step chain caller s).environment =
        v.environment.updateAll s.guard given (s.instruction.written chain v.environment) ∧
      (s.instruction.Fails chain v.environment → ∀ o, given o = [.unknownFor o]) := by
  have hsingle : ∀ (o : Operand) (values : List SymbolicValue),
      writeAll v.environment s.guard [(o, values)] =
        v.environment.updateAll s.guard (fun _ => values) ([o].filter fun o => !o.isLiteral) :=
    fun o values => writeAll_map v.environment s.guard (fun _ => values) [o]
  obtain ⟨guard, i⟩ := s
  cases i with
  | identity target parameter => exact ⟨_, hsingle target _, False.elim⟩
  | assign target source => exact ⟨_, hsingle target _, False.elim⟩
  | fieldRead target base field => exact ⟨_, hsingle target _, False.elim⟩
  | binary target operator left right => exact ⟨_, hsingle target _, False.elim⟩
  | create target className => exact ⟨_, hsingle target _, False.elim⟩
  | invoke result method receiver arguments =>
    obtain ⟨given, hwrites, herror⟩ := Effect.writes_ofCall chain v.environment caller
      (.named method receiver arguments) result
    refine ⟨given, ?_, herror⟩
    have hmap := writeAll_map v.environment guard given
      ((CallSite.named method receiver arguments).written result
        (chain.recognize (.named method receiver arguments) v.environment))
    rw [← hwrites] at hmap
    simpa [step, perform, Effect.ofInstruction, Instruction.written, CallSite.named] using hmap
  | giveBack value =>
    cases value with
    | none => exact ⟨fun _ => [], rfl, False.elim⟩
    | some value => exact ⟨_, hsingle .returnSlot _, False.elim⟩

theorem flows_step_of_fails [Enumeration] {chain : Chain} (caller : Method) {v : Visit}
    {s : Statement} (h : s.instruction.Fails chain v.environment) :
    (v.step chain caller s).flows = v.flows := by
  obtain ⟨guard, i⟩ := s
  cases i with
  | invoke result method receiver arguments =>
    obtain ⟨e, he⟩ := h
    have hnone := Effect.flows_ofCall_of_error he caller result
    simpa [step, perform, Effect.ofInstruction, CallSite.named] using hnone
  | _ => exact h.elim

theorem recorded_prefix_step [Enumeration] (chain : Chain) (caller : Method) (v : Visit)
    (s : Statement) (o : Operand) :
    v.environment.recorded o <+: (v.step chain caller s).environment.recorded o := by
  obtain ⟨given, henv, _⟩ := environment_step_eq_updateAll chain caller v s
  rw [henv, recorded_updateAll]
  exact List.prefix_append _ _

theorem flows_prefix_step [Enumeration] (chain : Chain) (caller : Method) (v : Visit)
    (s : Statement) : v.flows <+: (v.step chain caller s).flows :=
  List.prefix_append _ _

theorem exists_getElem?_returns_step [Enumeration] (chain : Chain) (caller : Method) (v : Visit)
    (s : Statement) {p : Nat} {r : SymbolicValue} (h : v.returns[p]? = some r) :
    ∃ r', (v.step chain caller s).returns[p]? = some r' ∧ r'.text = r.text ∧
      ∀ t ∈ r.tags, t ∈ r'.tags :=
  SymbolicValue.exists_getElem?_foldl_addResult h _

theorem texts_returns_prefix_step [Enumeration] (chain : Chain) (caller : Method) (v : Visit)
    (s : Statement) :
    v.returns.map SymbolicValue.text <+:
      (v.step chain caller s).returns.map SymbolicValue.text := by
  rw [List.prefix_iff_getElem?]
  intro p hp
  have hlt : p < v.returns.length := by simpa using hp
  obtain ⟨r', hat, htext, _⟩ :=
    exists_getElem?_returns_step chain caller v s (List.getElem?_eq_getElem hlt)
  simp [hat, htext]

/-- A statement writes the operands of its list, in order and under its guard, so each gets one
entry for each time it is listed, all other histories stay as they are, and a call that is answered
with an error leaves nothing but an unknown result. Hence what was recorded, reported and returned
after some statements of a body is the beginning of what is after one more. -/
theorem statements_only_append [Enumeration] (chain : Chain) :
    (∀ (caller : Method) (v : Visit) (s : Statement),
      let after := v.step chain caller s
      let written := s.instruction.written chain v.environment
      ∃ given : Operand → List SymbolicValue,
        after.environment = v.environment.updateAll s.guard given written ∧
        (∀ o, after.environment.recorded o = v.environment.recorded o ++
          List.replicate (written.count o)
            (s.guard, collapse v.environment.limit o (given o))) ∧
        (∀ o, o ∉ written →
          after.environment.histories.get? o = v.environment.histories.get? o) ∧
        (s.instruction.Fails chain v.environment → after.flows = v.flows ∧
          ∀ o, collapse v.environment.limit o (given o) = [.unknownFor o])) ∧
    ∀ (names : KnownName.Cache) (limit : Nat) (body : Body) (n : Nat),
      let before := upTo chain names limit body n
      let after := upTo chain names limit body (n + 1)
      (∀ o, before.environment.recorded o <+: after.environment.recorded o) ∧
        before.flows <+: after.flows ∧
        before.returns.map SymbolicValue.text <+: after.returns.map SymbolicValue.text ∧
        ∀ (p : Nat) (r : SymbolicValue), before.returns[p]? = some r →
          ∃ r', after.returns[p]? = some r' ∧ r'.text = r.text ∧ ∀ t ∈ r.tags, t ∈ r'.tags := by
  constructor
  · intro caller v s after written
    obtain ⟨given, henv, hfails⟩ := environment_step_eq_updateAll chain caller v s
    refine ⟨given, henv, ?_, ?_, ?_⟩
    · intro o
      rw [henv, recorded_updateAll]
    · intro o ho
      rw [henv, histories_updateAll_of_not_mem v.environment s.guard given ho]
    · intro h
      refine ⟨flows_step_of_fails caller h, ?_⟩
      intro o
      rw [hfails h o, collapse_unknownFor]
  · intro names limit body n before after
    cases hs : body.statements[n]? with
    | none =>
      have hsame : after = before := upTo_succ_of_none chain names limit hs
      rw [hsame]
      exact ⟨fun o => List.prefix_rfl, List.prefix_rfl, List.prefix_rfl,
        fun p r h => ⟨r, h, rfl, fun t ht => ht⟩⟩
    | some s =>
      have hnext : after = before.step chain body.method s := upTo_succ chain names limit hs
      rw [hnext]
      exact ⟨recorded_prefix_step chain body.method before s,
        flows_prefix_step chain body.method before s,
        texts_returns_prefix_step chain body.method before s,
        fun p r h => exists_getElem?_returns_step chain body.method before s h⟩

/-- The sender is returned, and then appended to nothing. -/
def orphanBody : Body where
  method := ⟨"com.example.Receiver", "orphan", ["android.telephony.SmsMessage"], "java.lang.String"⟩
  statements :=
    [⟨none, .invoke (some (.named "r1" "java.lang.String"))
      ⟨"android.telephony.SmsMessage", "getOriginatingAddress", [], "java.lang.String"⟩
      (some (.named "r0" "android.telephony.SmsMessage")) []⟩,
     ⟨none, .giveBack (some (.named "r1" "java.lang.String"))⟩,
     ⟨some ⟨"r1 != null"⟩, .invoke (some (.named "r1" "java.lang.String"))
      ⟨"java.lang.StringBuilder", "append", ["java.lang.String"], "java.lang.StringBuilder"⟩ none
      [.named "r1" "java.lang.String"]⟩]

theorem orphan_append_only :
    let before := upTo Recognizer.standard .empty 0 orphanBody 2
    let statement := orphanBody.statements.getLast (by decide)
    let after := before.step Recognizer.standard orphanBody.method statement
    statement.instruction.Fails Recognizer.standard before.environment ∧
      after.flows = before.flows ∧
      after.environment.recorded (.named "r1" "java.lang.String") =
        before.environment.recorded (.named "r1" "java.lang.String") ++
          [(some ⟨"r1 != null"⟩, [.unknownFor (.named "r1" "java.lang.String")])] ∧
      after.environment.histories.get? .returnSlot =
        before.environment.histories.get? .returnSlot ∧
      ∃ r r', before.returns[0]? = some r ∧
        (upTo Recognizer.standard .empty 0 orphanBody 3).returns[0]? = some r' ∧
        r'.text = r.text := by
  intro before statement after
  have hfails : statement.instruction.Fails Recognizer.standard before.environment := ⟨_, rfl⟩
  obtain ⟨hstep, hrun⟩ := statements_only_append Recognizer.standard
  obtain ⟨given, _, hrecorded, hframe, herror⟩ := hstep orphanBody.method before statement
  have hcount : (statement.instruction.written Recognizer.standard before.environment).count
      (.named "r1" "java.lang.String") = 1 := by decide +kernel
  have hother : Operand.returnSlot ∉
      statement.instruction.written Recognizer.standard before.environment := by decide +kernel
  have hlen : 0 < before.returns.length := by decide +kernel
  have hreturn := List.getElem?_eq_getElem hlen
  obtain ⟨r', hr', htext, _⟩ := (hrun .empty 0 orphanBody 2).2.2.2 0 _ hreturn
  refine ⟨hfails, (herror hfails).1, ?_, hframe _ hother, _, r', hreturn, hr', htext⟩
  have hnew := hrecorded (.named "r1" "java.lang.String")
  rw [hcount, (herror hfails).2] at hnew
  exact hnew

end Visit

end Provenance
