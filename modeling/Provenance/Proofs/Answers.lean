import Provenance.Proofs.Recognition

set_option autoImplicit false

namespace Provenance

theorem Method.isMalformed_iff (m : Method) :
    m.isMalformed = true ↔ m.className = "" ∨ m.name = "" := by
  simp [Method.isMalformed]

theorem KnownName.needsReceiver_iff (k : KnownName) :
    k.needsReceiver = true ↔
      k ∈ [.construct, .append, .concat, .substring, .toLowerCase, .toText] := by
  cases k <;> decide

theorem Chain.consult_of_perm {call : CallSite} {env : Environment} {chain first rest : Chain}
    {r : Recognizer} (h : chain.Perm (first ++ r :: rest))
    (hfirst : ∀ q ∈ first, q.recognize call env = .ok none)
    (hrest : ∀ q ∈ rest, q.recognize call env = .ok none) :
    Chain.consult call env chain = Chain.settle (r.recognize call env) := by
  have hmem : r ∈ chain := h.mem_iff.2 (by simp)
  obtain ⟨before, after, rfl⟩ := List.append_of_mem hmem
  have hothers : (before ++ after).Perm (first ++ rest) :=
    ((List.perm_middle.symm.trans h).trans List.perm_middle).cons_inv
  have hdeclined : ∀ q ∈ before ++ after, q.recognize call env = .ok none := by
    intro q hq
    rcases List.mem_append.1 (hothers.mem_iff.1 hq) with hq | hq
    · exact hfirst q hq
    · exact hrest q hq
  exact Chain.consult_sole call env before r after
    (fun q hq => hdeclined q (List.mem_append_left after hq))
    (fun q hq => hdeclined q (List.mem_append_right before hq))

namespace CallSite

theorem isUnmodelled_iff (call : CallSite) :
    call.isUnmodelled = true ↔ call.knownName = .unmodelled ∨
      call.knownName = .format ∧
        ¬ ∃ base ∈ call.receiver, isDateFormatType base.staticType = true := by
  cases hr : call.receiver <;> simp [isUnmodelled, formatsDate, hr]

variable [Enumeration] (call : CallSite) (env : Environment)

theorem recognize_of_perm {chain : Chain} (h : chain.Perm Recognizer.standard) :
    chain.recognize call env = Chain.recognize Recognizer.standard call env := by
  obtain ⟨first, r, rest, hsplit, hfirst, hrest, _⟩ := call.exists_sole env
  have hsame : Chain.consult call env chain = Chain.consult call env Recognizer.standard := by
    rw [Chain.consult_of_perm (hsplit ▸ h) hfirst hrest, hsplit,
      Chain.consult_sole call env first r rest hfirst hrest]
  simp only [Chain.recognize, hsame]

/-- The four ways in which a call can end, the first that applies being the one. -/
theorem recognize_standard_cases :
    (call.method.isMalformed = true ∧
      Chain.recognize Recognizer.standard call env = .error (.malformedMethod call.method)) ∨
    (call.method.isMalformed = false ∧
      (call.knownName.needsReceiver && call.receiver.isNone) = true ∧
      Chain.recognize Recognizer.standard call env = .error (.missingReceiver call.method)) ∨
    (call.method.isMalformed = false ∧
      (call.knownName.needsReceiver && call.receiver.isNone) = false ∧
      call.isUnmodelled = true ∧
      Chain.recognize Recognizer.standard call env = .ok none) ∨
    (call.method.isMalformed = false ∧
      (call.knownName.needsReceiver && call.receiver.isNone) = false ∧
      call.isUnmodelled = false ∧
      ∃ values, values ≠ [] ∧
        Chain.recognize Recognizer.standard call env = .ok (some values)) := by
  have hanswer := call.recognize_standard env
  cases hm : call.method.isMalformed with
  | true => simp [hanswer, verdict, isFaulty, hm]
  | false =>
    cases hn : call.knownName.needsReceiver && call.receiver.isNone with
    | true => simp [hanswer, verdict, isFaulty, hm, hn]
    | false =>
      cases hu : call.isUnmodelled with
      | true => simp [hanswer, verdict, isFaulty, hm, hn, hu]
      | false =>
        have hv : call.verdict = .modelled := by simp [verdict, isFaulty, hm, hn, hu]
        have hvalues := SymbolicValue.distinct_ne_nil (modelValues_ne_nil env hv)
        rw [hv] at hanswer
        exact Or.inr (Or.inr (Or.inr ⟨rfl, rfl, rfl, _, hvalues, hanswer⟩))

end CallSite

/-- The outcome of a call, by its method and its receiver alone. It is an error if the method is
malformed, or else if a receiver is needed and missing; nothing if the method is not modelled, or is
called `format` on something that formats no dates; and otherwise some values. In whatever order the
standard recognizers are asked, the answer is the same. -/
theorem CallSite.outcome_of_call [Enumeration] (names : KnownName.Cache) (env : Environment)
    (method : Method) (receiver : Option Operand) (arguments : List Operand) :
    let known := (names.lookup method).1
    let answer := Chain.recognize Recognizer.standard ⟨method, known, receiver, arguments⟩ env
    let malformed := method.className = "" ∨ method.name = ""
    let orphan := receiver = none ∧
      known ∈ [.construct, .append, .concat, .substring, .toLowerCase, .toText]
    let unmodelled := known = .unmodelled ∨
      known = .format ∧ ¬ ∃ base ∈ receiver, isDateFormatType base.staticType = true
    (answer = .error (.malformedMethod method) ↔ malformed) ∧
      (answer = .error (.missingReceiver method) ↔ ¬ malformed ∧ orphan) ∧
      (answer = .ok none ↔ ¬ malformed ∧ ¬ orphan ∧ unmodelled) ∧
      ((∃ values, values ≠ [] ∧ answer = .ok (some values)) ↔
        ¬ malformed ∧ ¬ orphan ∧ ¬ unmodelled) ∧
      ∀ chain : Chain, chain.Perm Recognizer.standard →
        chain.recognize ⟨method, known, receiver, arguments⟩ env = answer := by
  intro known answer malformed orphan unmodelled
  let call : CallSite := ⟨method, known, receiver, arguments⟩
  have hmalformed : method.isMalformed = true ↔ malformed := method.isMalformed_iff
  have horphan : (known.needsReceiver && receiver.isNone) = true ↔ orphan := by
    rw [Bool.and_eq_true, Option.isNone_iff_eq_none, known.needsReceiver_iff, and_comm]
  have hunmodelled : call.isUnmodelled = true ↔ unmodelled := call.isUnmodelled_iff
  have hcases :
      (malformed ∧ answer = .error (.malformedMethod method)) ∨
      (¬ malformed ∧ orphan ∧ answer = .error (.missingReceiver method)) ∨
      (¬ malformed ∧ ¬ orphan ∧ unmodelled ∧ answer = .ok none) ∨
      (¬ malformed ∧ ¬ orphan ∧ ¬ unmodelled ∧
        ∃ values, values ≠ [] ∧ answer = .ok (some values)) := by
    have hends := call.recognize_standard_cases env
    simp only [← Bool.not_eq_true] at hends
    rw [hmalformed, horphan, hunmodelled] at hends
    exact hends
  have hperm : ∀ chain : Chain, chain.Perm Recognizer.standard →
      chain.recognize call env = answer := fun _ h => call.recognize_of_perm env h
  rcases hcases with ⟨hm, h⟩ | ⟨hm, hn, h⟩ | ⟨hm, hn, hu, h⟩ | ⟨hm, hn, hu, values, hne, h⟩
  · refine ⟨?_, ?_, ?_, ?_, hperm⟩ <;> simp [h, hm]
  · refine ⟨?_, ?_, ?_, ?_, hperm⟩ <;> simp [h, hm, hn]
  · refine ⟨?_, ?_, ?_, ?_, hperm⟩ <;> simp [h, hm, hn, hu]
  · refine ⟨?_, ?_, ?_, ?_, hperm⟩ <;> simp [h, hm, hn, hu, hne]

end Provenance
