import Provenance.Proofs.Route
import Provenance.Proofs.Transfer

/-!
Statements that copy. An assignment, the calls that return what their receiver or their argument
holds and the constructors that take a text over all store the values of one operand under another.
The main statement says that a chain of such statements, in any mixture, keeps the values, their
order and the tags of all of them together. Every step deduplicates the values and applies the limit
again; that nothing is merged or collapsed rests on the shape of the environment.
-/

set_option autoImplicit false

namespace Provenance

structure SymbolicValue.Copy (v w : SymbolicValue) : Prop where
  expression : w.expression = v.expression
  snapshot : w.snapshot = v.snapshot
  size : w.size = v.size
  text : w.text = v.text
  tags : ∀ t ∈ v.tags, t ∈ w.tags

namespace SymbolicValue.Copy

theorem refl (v : SymbolicValue) : Copy v v := ⟨rfl, rfl, rfl, rfl, fun _ ht => ht⟩

theorem trans {u v w : SymbolicValue} (h : Copy u v) (h' : Copy v w) : Copy u w where
  expression := h'.expression.trans h.expression
  snapshot := h'.snapshot.trans h.snapshot
  size := h'.size.trans h.size
  text := h'.text.trans h.text
  tags := fun t ht => h'.tags t (h.tags t ht)

theorem addTags (v : SymbolicValue) (ts : TagSet) : Copy v (v.addTags ts) :=
  ⟨rfl, rfl, rfl, rfl, fun _ ht => TagSet.mem_union.2 (Or.inl ht)⟩

theorem forall₂_trans {old mid new : List SymbolicValue} (h : List.Forall₂ Copy old mid)
    (h' : List.Forall₂ Copy mid new) : List.Forall₂ Copy old new := by
  induction h generalizing new with
  | nil => exact h'
  | cons hv _ ih =>
    cases h' with
    | cons hw hrest => exact .cons (hv.trans hw) (ih hrest)

end SymbolicValue.Copy

/-- Value by value the second list copies the first, and no tag is new to the list as a whole. -/
structure Copied (old new : List SymbolicValue) : Prop where
  values : List.Forall₂ SymbolicValue.Copy old new
  tags : valueTags new = valueTags old

namespace Copied

theorem refl (values : List SymbolicValue) : Copied values values :=
  ⟨List.forall₂_same.2 fun v _ => .refl v, rfl⟩

theorem trans {old mid new : List SymbolicValue} (h : Copied old mid) (h' : Copied mid new) :
    Copied old new where
  values := SymbolicValue.Copy.forall₂_trans h.values h'.values
  tags := h'.tags.trans h.tags

theorem distinct_passOn {env : Environment} {x : Operand} (hx : x.isLiteral = false)
    {old : List SymbolicValue} (hr : env.resolve? x = some old) (hold : Settled old) :
    Copied old (SymbolicValue.distinct (Recognizer.passOn env x)) := by
  have hvalues : env.resolveOrUnknown x = old := by
    obtain ⟨v, rest, rfl⟩ := List.exists_cons_of_ne_nil hold.nonempty
    simp [Environment.resolveOrUnknown, env.resolveOperand?_of_not_literal hx, hr]
  have hpassed : Recognizer.passOn env x = old.map (·.addTags (env.tagsOf x)) := by
    rw [Recognizer.passOn, hvalues]
    rfl
  have htexts : ((Recognizer.passOn env x).map SymbolicValue.text).Nodup := by
    simpa [hpassed, Function.comp_def] using hold.texts
  rw [SymbolicValue.distinct_of_nodup htexts]
  constructor
  · rw [hpassed, List.forall₂_map_right_iff]
    exact List.forall₂_same.2 fun v _ => .addTags v _
  · rw [Recognizer.valueTags_passOn, Environment.tagsAt_of_resolve? hr]

end Copied

inductive Instruction.CopiesTo (x y : Operand) : Instruction → Prop where
  | assign : CopiesTo x y (.assign y x)
  | receiver {method : Method} {arguments : List Operand}
      (known : method.knownName ∈ [.toText, .toLowerCase]) :
      CopiesTo x y (.invoke (some y) method (some x) arguments)
  | valueOf {method : Method} {receiver : Option Operand} (known : method.knownName = .valueOf) :
      CopiesTo x y (.invoke (some y) method receiver [x])
  -- An integer given to a builder is a capacity and not a text.
  | construct {method : Method} {base : Operand} {result : Option Operand}
      (known : method.knownName = .construct)
      (text : x.staticType ≠ "int" ∨ method.className = KnownName.stringClass)
      (written : y = base ∨ result = some y) :
      CopiesTo x y (.invoke result method (some base) [x])

/-- Statements that copy, each from where the one before it copied to. -/
inductive CopyChain : Operand → List Statement → Operand → Prop where
  | nil (x : Operand) : CopyChain x [] x
  | cons {x y z : Operand} {s : Statement} {rest : List Statement}
      (copies : s.instruction.CopiesTo x y) (target : y.isLiteral = false)
      (later : CopyChain y rest z) : CopyChain x (s :: rest) z

namespace Effect

theorem copied_ofCall [Enumeration] {env : Environment} {caller : Method} {call : CallSite}
    {result : Option Operand} {x : Operand} {old : List SymbolicValue}
    (hcopied : Copied old (SymbolicValue.distinct (Recognizer.passOn env x)))
    (hverdict : call.verdict = .modelled)
    (hmodel : call.modelValues env = Recognizer.passOn env x) :
    ∀ w ∈ (ofCall Recognizer.standard env caller call result).writes, Copied old w.2 := by
  intro w hw
  rw [values_ofCall call hw, hverdict]
  simpa only [hmodel] using hcopied

theorem copied_standard [Enumeration] {env : Environment} {x y : Operand} {i : Instruction}
    (h : i.CopiesTo x y) (hx : x.isLiteral = false) {old : List SymbolicValue}
    (hr : env.resolve? x = some old) (hold : Settled old) (caller : Method) :
    y ∈ i.targets ∧ ∀ w ∈ (standard env caller i).writes, Copied old w.2 := by
  have hpassed := Copied.distinct_passOn hx hr hold
  have hliteral : x.literal? = none := by simpa [Operand.isLiteral] using hx
  cases h with
  | assign =>
    refine ⟨List.mem_singleton_self _, fun w hw => ?_⟩
    have hsame : w.2 = old := by
      rw [List.mem_singleton.1 hw]
      simp [copied, env.resolveOperand?_of_not_literal hx, hr]
    exact hsame ▸ .refl old
  | @receiver method arguments known =>
    have hname : method.knownName = .toText ∨ method.knownName = .toLowerCase := by
      simpa using known
    have hverdict : (CallSite.named method (some x) arguments).verdict = .modelled := by
      apply CallSite.verdict_of_known <;> rcases hname with hk | hk <;> simp [hk]
    refine ⟨?_, copied_ofCall hpassed hverdict ?_⟩
    · simp [Instruction.targets, CallSite.targets, hverdict]
    · rcases hname with hk | hk <;> simp [CallSite.modelValues, hk]
  | @valueOf method receiver known =>
    have hverdict : (CallSite.named method receiver [x]).verdict = .modelled := by
      apply CallSite.verdict_of_known <;> simp [known, KnownName.needsReceiver]
    refine ⟨?_, copied_ofCall hpassed hverdict ?_⟩
    · simp [Instruction.targets, CallSite.targets, hverdict]
    · simp [CallSite.modelValues, known, hliteral]
  | @construct method base result known text written =>
    have hverdict : (CallSite.named method (some base) [x]).verdict = .modelled := by
      apply CallSite.verdict_of_known <;> simp [known]
    have htext : ¬ (x.staticType = "int" ∧ method.className ≠ KnownName.stringClass) := by
      tauto
    have htargets : (Instruction.invoke result method (some base) [x]).targets =
        base :: result.toList := by
      simp only [Instruction.targets, CallSite.targets, hverdict]
      simp [CallSite.named, known, KnownName.updatesReceiver]
    refine ⟨?_, copied_ofCall hpassed hverdict ?_⟩
    · rw [htargets]
      rcases written with rfl | rfl <;> simp
    · simp [CallSite.modelValues, Recognizer.constructed, known, hliteral, htext]

end Effect

namespace Visit

open Environment (WellFormed)

/-- One copying statement: what is written is neither merged nor collapsed. -/
theorem copied_step [Enumeration] {limit : Nat} {v : Visit}
    (hshape : WellFormed limit v.environment) (hlimit : 1 ≤ limit) {s : Statement}
    {x y : Operand} (h : s.instruction.CopiesTo x y) (hx : x.isLiteral = false)
    (hy : y.isLiteral = false) {old : List SymbolicValue}
    (hr : v.environment.resolve? x = some old) (caller : Method) :
    ∃ new, (v.step Recognizer.standard caller s).environment.resolve? y = some new ∧
      Copied old new := by
  have hold := hshape.proper_resolve? hr
  obtain ⟨htarget, hwrites⟩ := Effect.copied_standard h hx hr hold.settled caller
  rw [← Effect.targets_standard v.environment caller] at htarget
  obtain ⟨new, history, hmem, hget, hlatest⟩ :=
    histories_writeAll_of_written v.environment s.guard hy htarget
  have hnew := hwrites _ hmem
  have hlength : new.length ≤ v.environment.limit := by
    have hbounded := hold.bounded
    rw [hshape.limit_eq, ← hnew.values.length_eq]
    omega
  rw [Environment.collapse_of_le y hlength] at hlatest
  refine ⟨new, ?_, hnew⟩
  rw [environment_step, Environment.resolve?_of_history hget, hlatest]

theorem copied_run [Enumeration] {limit : Nat} {v : Visit}
    (hshape : WellFormed limit v.environment) (hlimit : 1 ≤ limit) {copies : List Statement}
    {x y : Operand} (h : CopyChain x copies y) (hx : x.isLiteral = false)
    {old : List SymbolicValue} (hr : v.environment.resolve? x = some old) (caller : Method) :
    ∃ new, (v.run Recognizer.standard caller copies).environment.resolve? y = some new ∧
      Copied old new := by
  induction h generalizing v old with
  | nil x => exact ⟨old, hr, .refl old⟩
  | @cons x y z s rest copies target later ih =>
    obtain ⟨mid, hmid, hfirst⟩ := copied_step hshape hlimit copies hx target hr caller
    have hnext := wellFormed_step Recognizer.standard caller hshape s
    obtain ⟨new, hnew, hrest⟩ := ih hnext target hmid
    exact ⟨new, hnew, hfirst.trans hrest⟩

/-- In whatever state a body has reached, a chain of copies keeps the values of a recorded operand
in their order, each with its tags, and the tags of all of them together are the same. -/
theorem copies_keep_values [Enumeration] (names : KnownName.Cache) {limit : Nat}
    (hlimit : 1 ≤ limit) (body : Body) (n : Nat) {copies : List Statement} {x y : Operand}
    (hx : x.isLiteral = false)
    (hrecorded : ((upTo Recognizer.standard names limit body n).environment.get? x).isSome = true)
    (hchain : CopyChain x copies y) :
    let before := upTo Recognizer.standard names limit body n
    let after := before.run Recognizer.standard body.method copies
    ∃ old new, before.environment.resolve? x = some old ∧ old ≠ [] ∧
      after.environment.resolve? y = some new ∧
      List.Forall₂ SymbolicValue.Copy old new ∧
      ∀ t, (∃ v ∈ new, t ∈ v.tags) ↔ ∃ v ∈ old, t ∈ v.tags := by
  intro before after
  have hshape := wellFormed_upTo Recognizer.standard names limit body n
  obtain ⟨old, hold⟩ := hshape.exists_resolve? hrecorded
  obtain ⟨new, hnew, hcopied⟩ := copied_run hshape hlimit hchain hx hold body.method
  refine ⟨old, new, hold, (hshape.settled_resolve? hold).nonempty, hnew, hcopied.values, ?_⟩
  intro t
  rw [← mem_valueTags, ← mem_valueTags, hcopied.tags]

def senderCopies : List Statement :=
  [⟨none, .invoke (some (.named "r2" "java.lang.String"))
    ⟨"java.lang.String", "toLowerCase", [], "java.lang.String"⟩
    (some (.named "r1" "java.lang.String")) []⟩,
   ⟨some ⟨"r2 != null"⟩, .invoke none
    ⟨"java.lang.StringBuilder", "<init>", ["java.lang.String"], "void"⟩
    (some (.named "r3" "java.lang.StringBuilder")) [.named "r2" "java.lang.String"]⟩,
   ⟨none, .invoke (some (.named "r4" "java.lang.String"))
    ⟨"java.lang.StringBuilder", "toString", [], "java.lang.String"⟩
    (some (.named "r3" "java.lang.StringBuilder")) []⟩,
   ⟨none, .invoke (some (.named "r5" "java.lang.String"))
    ⟨"java.lang.String", "valueOf", ["java.lang.Object"], "java.lang.String"⟩
    none [.named "r4" "java.lang.String"]⟩,
   ⟨none, .assign (.named "r6" "java.lang.String") (.named "r5" "java.lang.String")⟩]

theorem copyChain_senderCopies :
    CopyChain (.named "r1" "java.lang.String") senderCopies (.named "r6" "java.lang.String") := by
  refine .cons (.receiver (by decide)) rfl ?_
  refine .cons (.construct (by decide) (Or.inl (by decide)) (Or.inl rfl)) rfl ?_
  refine .cons (.receiver (by decide)) rfl ?_
  refine .cons (.valueOf (by decide)) rfl ?_
  exact .cons .assign rfl (.nil _)

theorem sender_copied :
    let before := upTo Recognizer.standard .empty 1 senderBody 2
    let after := before.run Recognizer.standard senderBody.method senderCopies
    CopyChain (.named "r1" "java.lang.String") senderCopies (.named "r6" "java.lang.String") ∧
      ∃ old new, before.environment.resolve? (.named "r1" "java.lang.String") = some old ∧
        after.environment.resolve? (.named "r6" "java.lang.String") = some new ∧
        new.map SymbolicValue.text = ["r0.getOriginatingAddress()"] ∧
        List.Forall₂ SymbolicValue.Copy old new ∧ ∃ v ∈ new, "#sms/#sender" ∈ v.tags := by
  intro before after
  obtain ⟨old, new, hold, _, hnew, hcopied, htags⟩ := copies_keep_values .empty (le_refl 1)
    senderBody 2 rfl (by decide +kernel) copyChain_senderCopies
  have htext : (after.environment.resolve? (.named "r6" "java.lang.String")).map
      (·.map SymbolicValue.text) = some ["r0.getOriginatingAddress()"] := by decide +kernel
  have hsender : ∀ v ∈ before.environment.resolve? (.named "r1" "java.lang.String"),
      ∃ w ∈ v, "#sms/#sender" ∈ w.tags := by decide +kernel
  rw [hnew] at htext
  exact ⟨copyChain_senderCopies, old, new, hold, hnew, Option.some.inj htext, hcopied,
    (htags _).2 (hsender old hold)⟩

end Visit

end Provenance
