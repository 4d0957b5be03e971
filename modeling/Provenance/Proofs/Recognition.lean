import Provenance.Proofs.ValueTags
import Provenance.Visit

/-!
How the standard recognizers take a call. Which of them answers depends on the known name of the
method only, so their search has a direct description: a verdict that does not look at the
environment, and the values of a call that is modelled.
-/

set_option autoImplicit false

namespace Provenance

inductive Verdict where
  | faulty
  | unmodelled
  | modelled
  deriving DecidableEq

def KnownName.needsReceiver : KnownName → Bool
  | .construct | .append | .concat | .substring | .toLowerCase | .toText => true
  | _ => false

theorem Method.modelled?_of_isMalformed {m : Method} (h : m.isMalformed = true) :
    m.modelled? = none := by
  unfold Method.isMalformed at h
  unfold Method.modelled?
  rcases Bool.or_eq_true_iff.1 h with h | h
  · have hclass : m.className = "" := by simpa using h
    simp [hclass, KnownName.stringClass, KnownName.builderClasses, KnownName.messageClasses]
  · have hname : m.name = "" := by simpa using h
    simp [hname, KnownName.ofString, KnownName.ofBuilder, KnownName.ofMessage]

theorem KnownName.sourceTag?_of_ofString {name : String} {k : KnownName}
    (h : ofString name = some k) : k.sourceTag? = none := by
  unfold ofString at h
  split at h <;> simp at h <;> subst h <;> rfl

theorem KnownName.sourceTag?_of_ofBuilder {name : String} {k : KnownName}
    (h : ofBuilder name = some k) : k.sourceTag? = none := by
  unfold ofBuilder at h
  split at h <;> simp at h <;> subst h <;> rfl

theorem KnownName.sourceTag?_of_ofMessage {name : String} {k : KnownName}
    (h : ofMessage name = some k) : k.sourceTag? ≠ none := by
  unfold ofMessage at h
  split at h <;> simp at h <;> subst h <;> simp [sourceTag?]

/-- A known name is found in the table of the method's class, unless it is one that a method of any
class can have. -/
theorem Method.knownName_cases (m : Method) :
    (m.className = KnownName.stringClass ∧ KnownName.ofString m.name = some m.knownName) ∨
    (m.className ∈ KnownName.builderClasses ∧ KnownName.ofBuilder m.name = some m.knownName) ∨
    (m.className ∈ KnownName.messageClasses ∧ KnownName.ofMessage m.name = some m.knownName) ∨
    m.knownName = .format ∨ m.knownName = .unmodelled := by
  cases hm : m.modelled? with
  | none =>
    simp only [Method.knownName, hm, Option.getD_none]
    split <;> simp
  | some k =>
    have hk : m.knownName = k := by simp [Method.knownName, hm]
    rw [hk]
    unfold Method.modelled? at hm
    split at hm
    · exact Or.inl ⟨‹_›, hm⟩
    · split at hm
      · exact Or.inr (Or.inl ⟨‹_›, hm⟩)
      · split at hm
        · exact Or.inr (Or.inr (Or.inl ⟨‹_›, hm⟩))
        · simp at hm

theorem Method.builder_of_construct {m : Method} (h : m.knownName = .construct) :
    m.className ≠ KnownName.stringClass ↔ m.className ∈ KnownName.builderClasses := by
  rcases m.knownName_cases with ⟨hs, _⟩ | ⟨hb, _⟩ | ⟨_, hk⟩ | hk | hk
  · simp [hs, KnownName.stringClass, KnownName.builderClasses]
  · refine iff_of_true (fun hs => ?_) hb
    simp [hs, KnownName.stringClass, KnownName.builderClasses] at hb
  · have hsource := KnownName.sourceTag?_of_ofMessage hk
    simp [h, KnownName.sourceTag?] at hsource
  · simp [h] at hk
  · simp [h] at hk

namespace CallSite

open Recognizer

def formatsDate (call : CallSite) : Bool :=
  call.receiver.any fun base => isDateFormatType base.staticType

def isFaulty (call : CallSite) : Bool :=
  call.method.isMalformed || (call.knownName.needsReceiver && call.receiver.isNone)

def isUnmodelled (call : CallSite) : Bool :=
  call.knownName == .unmodelled || (call.knownName == .format && !call.formatsDate)

def verdict (call : CallSite) : Verdict :=
  if call.isFaulty then .faulty
  else if call.isUnmodelled then .unmodelled
  else .modelled

/-- An integer that is the only argument of a builder's constructor is a capacity. -/
def isCapacity (call : CallSite) (argument : Operand) : Bool :=
  argument.staticType == "int" && KnownName.builderClasses.contains call.method.className

def cuts [Enumeration] (call : CallSite) (env : Environment) (base : Operand) :
    List SymbolicValue :=
  (env.resolveOrUnknown base).map
    (foldOrDescribe call (env.capture call.arguments) base (cut? (positions? call.arguments)))

/-- The values of a modelled call, repeated texts included. -/
def modelValues [Enumeration] (call : CallSite) (env : Environment) : List SymbolicValue :=
  match call.knownName with
  | .append | .concat =>
    match call.receiver, call.arguments with
    | some base, [argument] => appended call env base argument
    | _, _ => [call.describeIn env]
  | .construct => constructed call env
  | .substring => call.receiver.toList.flatMap (call.cuts env)
  | .valueOf =>
    match call.arguments with
    | [argument] =>
      match argument.literal? with
      | some c => [.constant c.valueOf]
      | none => passOn env argument
    | _ => [call.describeIn env]
  | .format => call.receiver.toList.flatMap fun base =>
      call.arguments.foldl (fun values a => propagate env a values) (env.resolveOrUnknown base)
  | .toLowerCase | .toText => call.receiver.toList.flatMap (passOn env)
  | name => name.sourceTag?.toList.map fun tag => (call.describeIn env).addTag tag

end CallSite

namespace Recognizer

theorem propagate_ne_nil (env : Environment) (o : Operand) {values : List SymbolicValue}
    (h : values ≠ []) : propagate env o values ≠ [] := by
  simpa [propagate] using h

theorem passOn_ne_nil (env : Environment) (o : Operand) : passOn env o ≠ [] :=
  propagate_ne_nil env o (env.resolveOrUnknown_ne_nil o)

theorem foldl_propagate_ne_nil (env : Environment) (os : List Operand)
    {values : List SymbolicValue} (h : values ≠ []) :
    os.foldl (fun values a => propagate env a values) values ≠ [] := by
  induction os generalizing values with
  | nil => exact h
  | cons o rest ih => exact ih (propagate_ne_nil env o h)

theorem appended_ne_nil [Enumeration] (call : CallSite) (env : Environment)
    (base argument : Operand) : appended call env base argument ≠ [] := by
  apply propagate_ne_nil
  apply propagate_ne_nil
  simpa using env.resolveOrUnknown_ne_nil base

theorem constructed_ne_nil [Enumeration] (call : CallSite) (env : Environment) :
    constructed call env ≠ [] := by
  unfold constructed
  split
  · simp
  · split
    · simp
    · split
      · simp
      · split
        · simp
        · exact passOn_ne_nil env _
  · simp

theorem positions?_eq_none {arguments : List Operand} {a : Operand} (ha : a ∈ arguments)
    (h : a.isLiteral = false) : positions? arguments = none := by
  have hnone : a.literal? = none := by simpa [Operand.isLiteral] using h
  unfold positions?
  induction arguments with
  | nil => simp at ha
  | cons b rest ih =>
    rw [List.mapM_cons]
    rcases List.mem_cons.1 ha with rfl | ha
    · simp [hnone]
    · rw [ih ha]
      cases (b.literal?.bind Constant.asInt?).map Int64.toInt <;> rfl

theorem foldOrDescribe_of_some [Enumeration] (call : CallSite) (s : Snapshot) (base : Operand)
    {fold : Constant → Option Constant} {v : SymbolicValue} {c : Constant}
    (h : v.constant?.bind fold = some c) : foldOrDescribe call s base fold v = .constant c := by
  simp [foldOrDescribe, h]

theorem foldOrDescribe_of_none [Enumeration] (call : CallSite) (s : Snapshot) (base : Operand)
    {fold : Constant → Option Constant} {v : SymbolicValue} (h : v.constant?.bind fold = none) :
    foldOrDescribe call s base fold v = call.describe (s.insert base [v]) := by
  simp [foldOrDescribe, h]

@[simp] theorem messageSource_declines [Enumeration] {call : CallSite} {env : Environment}
    (h : call.knownName.sourceTag? = none) : messageSource.recognize call env = .ok none := by
  simp [messageSource, h]

@[simp] theorem stringConstructor_declines [Enumeration] {call : CallSite} {env : Environment}
    (h : call.knownName ≠ .construct) : stringConstructor.recognize call env = .ok none := by
  simp [stringConstructor, h]

@[simp] theorem append_declines [Enumeration] {call : CallSite} {env : Environment}
    (ha : call.knownName ≠ .append) (hc : call.knownName ≠ .concat) :
    append.recognize call env = .ok none := by
  simp [append, ha, hc]

@[simp] theorem substring_declines [Enumeration] {call : CallSite} {env : Environment}
    (h : call.knownName ≠ .substring) : substring.recognize call env = .ok none := by
  simp [substring, h]

@[simp] theorem valueOf_declines [Enumeration] {call : CallSite} {env : Environment}
    (h : call.knownName ≠ .valueOf) : valueOf.recognize call env = .ok none := by
  simp [valueOf, h]

@[simp] theorem dateFormat_declines {call : CallSite} {env : Environment}
    (h : call.knownName ≠ .format) : dateFormat.recognize call env = .ok none := by
  simp [dateFormat, h]

@[simp] theorem toLowerCase_declines {call : CallSite} {env : Environment}
    (h : call.knownName ≠ .toLowerCase) : toLowerCase.recognize call env = .ok none := by
  simp [toLowerCase, h]

@[simp] theorem toText_declines {call : CallSite} {env : Environment}
    (h : call.knownName ≠ .toText) : toText.recognize call env = .ok none := by
  simp [toText, h]

end Recognizer

namespace Chain

open Recognizer

def settle : Recognition → Recognition
  | .error e => .error e
  | .ok (some (v :: values)) => .ok (some (SymbolicValue.distinct (v :: values)))
  | .ok _ => .ok none

theorem settle_some {values : List SymbolicValue} (h : values ≠ []) :
    settle (.ok (some values)) = .ok (some (SymbolicValue.distinct values)) := by
  cases values with
  | nil => contradiction
  | cons v vs => rfl

theorem consult_declined {call : CallSite} {env : Environment} {chain : Chain}
    (h : ∀ r ∈ chain, r.recognize call env = .ok none) :
    Chain.consult call env chain = .ok none := by
  induction chain with
  | nil => rfl
  | cons r rest ih =>
    have hr : r.recognize call env = .ok none := h r (by simp)
    have hrest : ∀ q ∈ rest, q.recognize call env = .ok none := fun q hq => h q (by simp [hq])
    simpa [Chain.consult, hr] using ih hrest

theorem consult_sole (call : CallSite) (env : Environment) (first : Chain) (r : Recognizer)
    (rest : Chain) (hfirst : ∀ q ∈ first, q.recognize call env = .ok none)
    (hrest : ∀ q ∈ rest, q.recognize call env = .ok none) :
    Chain.consult call env (first ++ r :: rest) = settle (r.recognize call env) := by
  induction first with
  | nil =>
    have hlater := consult_declined hrest
    rw [List.nil_append, Chain.consult]
    split <;> rename_i h <;> rw [h]
    · rfl
    · rfl
    · rename_i answer hcons
      rw [hlater]
      cases answer with
      | none => rfl
      | some values =>
        cases values with
        | nil => rfl
        | cons v vs => exact absurd rfl (hcons v vs)
  | cons q first ih =>
    have hq : q.recognize call env = .ok none := hfirst q (by simp)
    have hfirst : ∀ p ∈ first, p.recognize call env = .ok none := fun p hp =>
      hfirst p (by simp [hp])
    simpa [Chain.consult, hq] using ih hfirst

end Chain

namespace CallSite

open Recognizer

/-- What the recognizer for the known name of a call says, before repeated texts are left out. -/
def answer [Enumeration] (call : CallSite) (env : Environment) : Recognition :=
  if call.knownName.needsReceiver && call.receiver.isNone then
    .error (.missingReceiver call.method)
  else if call.isUnmodelled then .ok none
  else .ok (some (call.modelValues env))

/-- One standard recognizer decides about a call and all others decline it. -/
theorem exists_sole [Enumeration] (call : CallSite) (env : Environment) :
    ∃ first r rest, standard = first ++ r :: rest ∧
      (∀ q ∈ first, q.recognize call env = .ok none) ∧
      (∀ q ∈ rest, q.recognize call env = .ok none) ∧
      r.recognize call env = call.answer env := by
  cases hk : call.knownName with
  | unmodelled =>
    refine ⟨[], _, _, rfl, ?_, ?_, ?_⟩ <;>
      simp [hk, KnownName.sourceTag?, answer, KnownName.needsReceiver, isUnmodelled]
  | smsBody | smsSender | smsDisplayBody | smsDisplaySender =>
    refine ⟨[], _, _, rfl, ?_, ?_, ?_⟩ <;>
      simp [hk, messageSource, KnownName.sourceTag?, answer, KnownName.needsReceiver, isUnmodelled,
        modelValues]
  | construct =>
    refine ⟨[messageSource], _, _, rfl, ?_, ?_, ?_⟩
    · simp [hk, KnownName.sourceTag?]
    · simp [hk]
    · cases hr : call.receiver <;>
        simp [hk, hr, stringConstructor, answer, KnownName.needsReceiver, isUnmodelled, modelValues]
  | append | concat =>
    refine ⟨[messageSource, stringConstructor], _, _, rfl, ?_, ?_, ?_⟩
    · simp [hk, KnownName.sourceTag?]
    · simp [hk]
    · cases hr : call.receiver with
      | none => simp [hk, hr, append, answer, KnownName.needsReceiver]
      | some base =>
        rcases ha : call.arguments with _ | ⟨a, _ | ⟨b, rest⟩⟩ <;>
          simp [hk, hr, ha, append, answer, KnownName.needsReceiver, isUnmodelled, modelValues]
  | substring =>
    refine ⟨[messageSource, stringConstructor, append], _, _, rfl, ?_, ?_, ?_⟩
    · simp [hk, KnownName.sourceTag?]
    · simp [hk]
    · cases hr : call.receiver <;>
        simp [hk, hr, substring, answer, KnownName.needsReceiver, isUnmodelled, modelValues, cuts]
  | valueOf =>
    refine ⟨[messageSource, stringConstructor, append, substring], _, _, rfl, ?_, ?_, ?_⟩
    · simp [hk, KnownName.sourceTag?]
    · simp [hk]
    · rcases ha : call.arguments with _ | ⟨a, _ | ⟨b, rest⟩⟩
      · simp [hk, ha, valueOf, answer, KnownName.needsReceiver, isUnmodelled, modelValues]
      · cases hl : a.literal? <;>
          simp [hk, ha, hl, valueOf, answer, KnownName.needsReceiver, isUnmodelled, modelValues]
      · simp [hk, ha, valueOf, answer, KnownName.needsReceiver, isUnmodelled, modelValues]
  | format =>
    refine ⟨[messageSource, stringConstructor, append, substring, valueOf], _, _, rfl, ?_, ?_, ?_⟩
    · simp [hk, KnownName.sourceTag?]
    · simp [hk]
    · cases hr : call.receiver with
      | none =>
        simp [hk, hr, dateFormat, answer, KnownName.needsReceiver, isUnmodelled, formatsDate]
      | some base =>
        cases hd : isDateFormatType base.staticType <;>
          simp [hk, hr, hd, dateFormat, answer, KnownName.needsReceiver, isUnmodelled, formatsDate,
            modelValues]
  | toLowerCase =>
    refine ⟨[messageSource, stringConstructor, append, substring, valueOf, dateFormat], _, _, rfl,
      ?_, ?_, ?_⟩
    · simp [hk, KnownName.sourceTag?]
    · simp [hk]
    · cases hr : call.receiver <;>
        simp [hk, hr, toLowerCase, passReceiverOn, answer, KnownName.needsReceiver, isUnmodelled,
          modelValues]
  | toText =>
    refine ⟨[messageSource, stringConstructor, append, substring, valueOf, dateFormat, toLowerCase],
      _, _, rfl, ?_, ?_, ?_⟩
    · simp [hk, KnownName.sourceTag?]
    · simp
    · cases hr : call.receiver <;>
        simp [hk, hr, toText, passReceiverOn, answer, KnownName.needsReceiver, isUnmodelled,
          modelValues]

theorem modelValues_of_source [Enumeration] {call : CallSite} (env : Environment) {tag : Tag}
    (h : call.knownName.sourceTag? = some tag) :
    call.modelValues env = [(call.describeIn env).addTag tag] := by
  cases hk : call.knownName <;> simp [hk, KnownName.sourceTag?] at h <;>
    simp [modelValues, hk, KnownName.sourceTag?, h]

theorem verdict_eq_modelled {call : CallSite} :
    call.verdict = .modelled ↔ call.isFaulty = false ∧ call.isUnmodelled = false := by
  unfold verdict
  cases call.isFaulty <;> cases call.isUnmodelled <;> simp

theorem exists_receiver_of_modelled {call : CallSite} (h : call.verdict = .modelled)
    (hn : call.knownName.needsReceiver = true) : ∃ base, call.receiver = some base := by
  have hfaulty := (verdict_eq_modelled.1 h).1
  cases hr : call.receiver with
  | none => simp [isFaulty, hn, hr] at hfaulty
  | some base => exact ⟨base, rfl⟩

theorem exists_dateFormat_of_modelled {call : CallSite} (h : call.verdict = .modelled)
    (hk : call.knownName = .format) :
    ∃ base, call.receiver = some base ∧ isDateFormatType base.staticType = true := by
  have hmodelled := (verdict_eq_modelled.1 h).2
  cases hr : call.receiver with
  | none => simp [isUnmodelled, hk, formatsDate, hr] at hmodelled
  | some base =>
    refine ⟨base, rfl, ?_⟩
    simpa [isUnmodelled, hk, formatsDate, hr] using hmodelled

theorem modelValues_ne_nil [Enumeration] {call : CallSite} (env : Environment)
    (h : call.verdict = .modelled) : call.modelValues env ≠ [] := by
  unfold modelValues
  cases hk : call.knownName with
  | unmodelled => simp [isUnmodelled, hk, verdict_eq_modelled] at h
  | smsBody | smsSender | smsDisplayBody | smsDisplaySender => simp [KnownName.sourceTag?]
  | construct => exact constructed_ne_nil call env
  | append | concat =>
    simp only
    split
    · exact appended_ne_nil call env _ _
    · simp
  | valueOf =>
    simp only
    split
    · split
      · simp
      · exact passOn_ne_nil env _
    · simp
  | format =>
    obtain ⟨base, hr, _⟩ := exists_dateFormat_of_modelled h hk
    simpa [hr] using foldl_propagate_ne_nil env call.arguments (env.resolveOrUnknown_ne_nil base)
  | substring =>
    obtain ⟨base, hr⟩ := exists_receiver_of_modelled h (by rw [hk]; rfl)
    simpa [hr, cuts] using env.resolveOrUnknown_ne_nil base
  | toLowerCase | toText =>
    obtain ⟨base, hr⟩ := exists_receiver_of_modelled h (by rw [hk]; rfl)
    simpa [hr] using passOn_ne_nil env base

theorem recognize_standard [Enumeration] (call : CallSite) (env : Environment) :
    Chain.recognize standard call env =
      match call.verdict with
      | .faulty => .error
          (if call.method.isMalformed then .malformedMethod call.method
            else .missingReceiver call.method)
      | .unmodelled => .ok none
      | .modelled => .ok (some (SymbolicValue.distinct (call.modelValues env))) := by
  obtain ⟨first, r, rest, hsplit, hfirst, hrest, hanswer⟩ := call.exists_sole env
  have hconsult : Chain.consult call env standard = Chain.settle (call.answer env) := by
    rw [hsplit, Chain.consult_sole call env first r rest hfirst hrest, hanswer]
  cases hm : call.method.isMalformed with
  | true => simp [Chain.recognize, Method.validate, hm, verdict, isFaulty]
  | false =>
    have hrec : Chain.recognize standard call env = Chain.settle (call.answer env) := by
      simpa [Chain.recognize, Method.validate, hm] using hconsult
    rw [hrec]
    cases hn : (call.knownName.needsReceiver && call.receiver.isNone) with
    | true => simp [answer, verdict, isFaulty, hm, hn, Chain.settle]
    | false =>
      cases hu : call.isUnmodelled with
      | true => simp [answer, verdict, isFaulty, hm, hn, hu, Chain.settle]
      | false =>
        have hv : call.verdict = .modelled := by simp [verdict, isFaulty, hm, hn, hu]
        rw [hv, ← Chain.settle_some (modelValues_ne_nil env hv)]
        simp [answer, hn, hu]

end CallSite

end Provenance
