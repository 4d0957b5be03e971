import Provenance.Proofs.Alike

set_option autoImplicit false

namespace Provenance

structure Effect.Alike (e e' : Effect) : Prop where
  writes : List.Forall₂ (fun w w' => w.1 = w'.1 ∧ List.Forall₂ SymbolicValue.Alike w.2 w'.2)
    e.writes e'.writes
  flows : List.Forall₂ (Flow.Related List.Perm) e.flows e'.flows
  returns : List.Forall₂ SymbolicValue.Alike e.returns e'.returns

namespace Environment.Alike

open SymbolicValue Recognizer

variable {env env' : Environment}

theorem propagate (h : Alike env env') (o : Operand) {values values' : List SymbolicValue}
    (hv : List.Forall₂ SymbolicValue.Alike values values') :
    List.Forall₂ SymbolicValue.Alike (Recognizer.propagate env o values)
      (Recognizer.propagate env' o values') :=
  List.rel_map (fun _ _ hv => hv.addTags (h.tagsOf o)) hv

theorem foldl_propagate (h : Alike env env') (os : List Operand)
    {values values' : List SymbolicValue}
    (hv : List.Forall₂ SymbolicValue.Alike values values') :
    List.Forall₂ SymbolicValue.Alike
      (os.foldl (fun values a => Recognizer.propagate env a values) values)
      (os.foldl (fun values a => Recognizer.propagate env' a values) values') := by
  induction os generalizing values values' with
  | nil => exact hv
  | cons o rest ih => exact ih (h.propagate o hv)

theorem passOn (h : Alike env env') (o : Operand) :
    List.Forall₂ SymbolicValue.Alike (Recognizer.passOn env o) (Recognizer.passOn env' o) :=
  h.propagate o (h.resolveOrUnknown o)

section

variable (order order' : Enumeration)

theorem describeIn (h : Alike env env') (call : CallSite) :
    List.Forall₂ SymbolicValue.Alike [@CallSite.describeIn order call env]
      [@CallSite.describeIn order' call env'] :=
  .cons (h.makeIn order order' call.expression) .nil

theorem foldOrDescribe (h : Alike env env') (call : CallSite) (base : Operand)
    (arguments : List Operand) (fold : Constant → Option Constant) :
    List.Forall₂ SymbolicValue.Alike
      ((env.resolveOrUnknown base).map
        (@Recognizer.foldOrDescribe order call (env.capture arguments) base fold))
      ((env'.resolveOrUnknown base).map
        (@Recognizer.foldOrDescribe order' call (env'.capture arguments) base fold)) := by
  refine List.rel_map ?_ (h.resolveOrUnknown base)
  intro v v' hv
  have hsnapshot := (h.capture arguments).insert base (.cons hv .nil)
  have hsame : v'.constant?.bind fold = v.constant?.bind fold := by rw [hv.constant?]
  cases hc : v.constant?.bind fold with
  | some c =>
    rw [@foldOrDescribe_of_some order call _ base _ _ _ hc,
      @foldOrDescribe_of_some order' call _ base _ _ _ (hsame.trans hc)]
    exact Alike.leaf _
  | none =>
    rw [@foldOrDescribe_of_none order call _ base _ _ hc,
      @foldOrDescribe_of_none order' call _ base _ _ (hsame.trans hc)]
    exact make_alike order order' call.expression hsnapshot

theorem constructed (h : Alike env env') (call : CallSite) :
    List.Forall₂ SymbolicValue.Alike (@Recognizer.constructed order call env)
      (@Recognizer.constructed order' call env') := by
  have hdescribed := h.describeIn order order' call
  unfold Recognizer.constructed
  split
  · exact Alike.singleton_leaf _
  · split
    · exact Alike.singleton_leaf _
    · split
      · exact Alike.singleton_leaf _
      · split
        · exact hdescribed
        · exact h.passOn _
  · exact hdescribed

theorem modelValues (h : Alike env env') (call : CallSite) :
    List.Forall₂ SymbolicValue.Alike (@CallSite.modelValues order call env)
      (@CallSite.modelValues order' call env') := by
  have hdescribed := h.describeIn order order' call
  cases hk : call.knownName with
  | unmodelled => simp [CallSite.modelValues, hk, KnownName.sourceTag?]
  | smsBody | smsSender | smsDisplayBody | smsDisplaySender =>
    have hone : (@CallSite.describeIn order call env).Alike
        (@CallSite.describeIn order' call env') := h.makeIn order order' call.expression
    simpa [CallSite.modelValues, hk, KnownName.sourceTag?] using hone.addTag _
  | construct => simpa [CallSite.modelValues, hk] using h.constructed order order' call
  | append | concat =>
    simp only [CallSite.modelValues, hk]
    split
    · exact h.propagate _ (h.propagate _ (h.foldOrDescribe order order' call _ _ _))
    · exact hdescribed
  | substring =>
    cases hr : call.receiver with
    | none => simp [CallSite.modelValues, hk, hr]
    | some base =>
      have hcuts := h.foldOrDescribe order order' call base call.arguments
        (cut? (positions? call.arguments))
      simpa only [CallSite.modelValues, hk, hr, CallSite.cuts, Option.toList_some,
        List.flatMap_singleton] using hcuts
  | valueOf =>
    simp only [CallSite.modelValues, hk]
    split
    · split
      · exact Alike.singleton_leaf _
      · exact h.passOn _
    · exact hdescribed
  | format =>
    cases hr : call.receiver with
    | none => simp [CallSite.modelValues, hk, hr]
    | some base =>
      have htagged := h.foldl_propagate call.arguments (h.resolveOrUnknown base)
      simpa only [CallSite.modelValues, hk, hr, Option.toList_some, List.flatMap_singleton] using
        htagged
  | toLowerCase | toText =>
    cases hr : call.receiver with
    | none => simp [CallSite.modelValues, hk, hr]
    | some base =>
      simpa only [CallSite.modelValues, hk, hr, Option.toList_some, List.flatMap_singleton] using
        h.passOn base

end

end Environment.Alike

namespace Environment

def texts (env : Environment) : List (Operand × List (Option Condition × List String)) :=
  env.histories.entries.map fun e =>
    (e.1, e.2.entries.map fun w => (w.1, w.2.map SymbolicValue.text))

theorem Alike.texts {env env' : Environment} (h : Alike env env') : env.texts = env'.texts := by
  refine map_eq_of_forall₂ h.histories ?_
  rintro ⟨o, history⟩ ⟨o', history'⟩ ⟨rfl, hhistory⟩
  have hentries : (history.entries.map fun w => (w.1, w.2.map SymbolicValue.text)) =
      history'.entries.map fun w => (w.1, w.2.map SymbolicValue.text) := by
    apply map_eq_of_forall₂ hhistory
    intro w w' hw
    rw [hw.1, SymbolicValue.texts_eq_of_alike hw.2]
  exact congrArg (Prod.mk o) hentries

theorem WellFormed.settled_resolveOrUnknown {limit : Nat} {env : Environment}
    (h : WellFormed limit env) (o : Operand) : Settled (env.resolveOrUnknown o) := by
  rcases env.resolveOrUnknown_cases o with hunknown | hcopied
  · rw [hunknown]
    exact Settled.singleton _
  · rw [hcopied]
    exact h.settled_copied o _

/-- The snapshots over which a call describes the candidates of its receiver are all different, so
an order for each snapshot is an order for each value that is made. -/
theorem WellFormed.nodup_snapshots {limit : Nat} {env : Environment} (h : WellFormed limit env)
    (base : Operand) (arguments : List Operand) :
    ((env.resolveOrUnknown base).map fun v => (env.capture arguments).insert base [v]).Nodup := by
  have hcandidates : (env.resolveOrUnknown base).Nodup :=
    (h.settled_resolveOrUnknown base).texts.of_map
  apply hcandidates.map
  intro v v' heq
  have hget := congrArg (fun s : Snapshot => s.get? base) heq
  simpa [Table.get?_insert] using hget

end Environment

namespace Effect

open Environment

variable (order order' : Enumeration) {env env' : Environment}

theorem Alike.ofWrites {writes writes' : List (Operand × List SymbolicValue)}
    (h : List.Forall₂ (fun w w' => w.1 = w'.1 ∧ List.Forall₂ SymbolicValue.Alike w.2 w'.2)
      writes writes') : Alike (ofWrites writes) (ofWrites writes') :=
  ⟨h, .nil, .nil⟩

theorem Alike.write (target : Operand) {values values' : List SymbolicValue}
    (h : List.Forall₂ SymbolicValue.Alike values values') :
    Alike (write target values) (write target values') :=
  .ofWrites (.cons ⟨rfl, h⟩ .nil)

theorem forall₂_writes (targets : List Operand) {values values' : List SymbolicValue}
    (h : List.Forall₂ SymbolicValue.Alike values values') :
    List.Forall₂ (fun w w' => w.1 = w'.1 ∧ List.Forall₂ SymbolicValue.Alike w.2 w'.2)
      (targets.map (·, values)) (targets.map (·, values')) := by
  induction targets with
  | nil => exact .nil
  | cons o rest ih => exact .cons ⟨rfl, h⟩ ih

theorem flowsInto_alike (h : env.Alike env') (caller : Method) (call : CallSite) :
    List.Forall₂ (Flow.Related List.Perm) (flowsInto env caller call)
      (flowsInto env' caller call) :=
  flowsInto_related (fun a => (h.tagsOf a).isEmpty) h.tagsOf caller call

theorem ofUnmodelled_alike (h : env.Alike env') (caller : Method) (call : CallSite)
    (result : Option Operand) :
    Alike (@ofUnmodelled order env caller call result)
      (@ofUnmodelled order' env' caller call result) where
  writes := by
    have hobject := h.makeIn order order' (.object call.method.className call.arguments)
    simp only [ofUnmodelled]
    split
    · exact .cons ⟨rfl, .cons hobject .nil⟩ .nil
    · exact forall₂_writes result.toList (h.describeIn order order' call)
  flows := flowsInto_alike h caller call
  returns := .nil

theorem ofCall_alike (h : env.Alike env') (caller : Method) (call : CallSite)
    (result : Option Operand) :
    Alike (@ofCall order (@Recognizer.standard order) env caller call result)
      (@ofCall order' (@Recognizer.standard order') env' caller call result) := by
  rw [@ofCall_standard order, @ofCall_standard order']
  cases call.verdict with
  | faulty =>
    refine .ofWrites (List.forall₂_map_left_iff.2 (List.forall₂_map_right_iff.2 ?_))
    exact List.forall₂_same.2 fun o _ => ⟨rfl, SymbolicValue.Alike.singleton_leaf _⟩
  | unmodelled => exact ofUnmodelled_alike order order' h caller call result
  | modelled =>
    have hvalues := SymbolicValue.distinct_alike (h.modelValues order order' call)
    exact .ofWrites (forall₂_writes _ hvalues)

theorem standard_alike (h : env.Alike env') (caller : Method) (i : Instruction) :
    Alike (@standard order env caller i) (@standard order' env' caller i) := by
  cases i with
  | identity target parameter => exact .write target (SymbolicValue.Alike.singleton_leaf _)
  | assign target source => exact .write target (h.copied source _)
  | fieldRead target base field => exact .write target (.cons (h.makeIn order order' _) .nil)
  | binary target operator left right =>
    exact .write target (.cons (h.makeIn order order' _) .nil)
  | create target className => exact .write target (.cons (h.makeIn order order' _) .nil)
  | invoke result method receiver arguments =>
    exact ofCall_alike order order' h caller (.named method receiver arguments) result
  | giveBack value =>
    cases value with
    | none => exact .ofWrites .nil
    | some value =>
      have hvalues := h.copied value (.returned value)
      exact ⟨.cons ⟨rfl, hvalues⟩ .nil, .nil, hvalues⟩

end Effect

namespace Visit

open Environment

structure Alike (v v' : Visit) : Prop where
  environment : v.environment.Alike v'.environment
  returns : List.Forall₂ SymbolicValue.Alike v.returns v'.returns
  flows : List.Forall₂ (Flow.Related List.Perm) v.flows v'.flows

theorem Alike.step (order order' : Enumeration) {v v' : Visit} (h : Alike v v') (caller : Method)
    (s : Statement) :
    Alike (@step order (@Recognizer.standard order) caller v s)
      (@step order' (@Recognizer.standard order') caller v' s) := by
  have heffect := Effect.standard_alike order order' h.environment caller s.instruction
  refine ⟨?_, ?_, ?_⟩
  · rw [@environment_step order, @environment_step order']
    refine writeAll_related ?_ heffect.writes h.environment
    exact fun henv o _ _ hvalues => henv.update o hvalues s.guard
  · rw [@returns_step order, @returns_step order']
    exact SymbolicValue.foldl_addResult_alike heffect.returns h.returns
  · rw [@flows_step order, @flows_step order']
    exact List.rel_append h.flows heffect.flows

/-- The visit of the first statements of a body in which each statement enumerates snapshots in an
order of its own. -/
def ordered (orders : Nat → Enumeration) (names : KnownName.Cache) (limit : Nat) (body : Body) :
    Nat → Visit
  | 0 => start limit names
  | n + 1 =>
    match body.statements[n]? with
    | some s =>
      @step (orders n) (@Recognizer.standard (orders n)) body.method
        (ordered orders names limit body n) s
    | none => ordered orders names limit body n

theorem ordered_const [order : Enumeration] (names : KnownName.Cache) (limit : Nat) (body : Body)
    (n : Nat) :
    ordered (fun _ => order) names limit body n =
      upTo Recognizer.standard names limit body n := by
  induction n with
  | zero => rfl
  | succ n ih =>
    unfold ordered
    cases hs : body.statements[n]? with
    | none => rw [upTo_succ_of_none Recognizer.standard names limit hs, ih]
    | some s => rw [upTo_succ Recognizer.standard names limit hs, ih]

theorem wellFormed_ordered (orders : Nat → Enumeration) (names : KnownName.Cache) (limit : Nat)
    (body : Body) (n : Nat) : WellFormed limit (ordered orders names limit body n).environment := by
  induction n with
  | zero => exact wellFormed_new limit
  | succ n ih =>
    unfold ordered
    cases body.statements[n]? with
    | none => exact ih
    | some s => exact @wellFormed_step (orders n) _ body.method limit _ ih s

theorem alike_ordered (orders orders' : Nat → Enumeration) (names names' : KnownName.Cache)
    (limit : Nat) (body : Body) (n : Nat) :
    Alike (ordered orders names limit body n) (ordered orders' names' limit body n) := by
  induction n with
  | zero => exact ⟨.new limit, .nil, .nil⟩
  | succ n ih =>
    unfold ordered
    cases body.statements[n]? with
    | none => exact ih
    | some s => exact ih.step (orders n) (orders' n) body.method s

/-- The result does not depend on the order in which snapshots are enumerated, not even if the order
is chosen anew for each value that a statement makes. After every statement two visits have
recorded, returned and reported the same, but for the order of tags. -/
theorem alike_under_orders (orders orders' : Nat → Enumeration) (names names' : KnownName.Cache)
    (limit : Nat) (body : Body) (n : Nat) :
    let v := ordered orders names limit body n
    let v' := ordered orders' names' limit body n
    Alike v v' ∧ v.environment.texts = v'.environment.texts ∧
      v.returns.map SymbolicValue.text = v'.returns.map SymbolicValue.text ∧
      ∀ base arguments, ((v.environment.resolveOrUnknown base).map fun candidate =>
        (v.environment.capture arguments).insert base [candidate]).Nodup := by
  intro v v'
  have halike : Alike v v' := alike_ordered orders orders' names names' limit body n
  have hshape : v.environment.WellFormed limit := wellFormed_ordered orders names limit body n
  exact ⟨halike, halike.environment.texts, SymbolicValue.texts_eq_of_alike halike.returns,
    hshape.nodup_snapshots⟩

-- The order does show: the tags of a sum are listed as its operands are enumerated.
example :
    let forwards : Enumeration := .ascending
    let backwards : Enumeration := ⟨fun s => s.entries.reverse, fun s => s.entries.reverse_perm⟩
    let read (target getter : String) : Statement := ⟨none, .invoke (some (.named target "int"))
      ⟨"android.telephony.SmsMessage", getter, [], "java.lang.String"⟩ none []⟩
    let body : Body := ⟨⟨"C", "m", [], "void"⟩,
      [read "a" "getMessageBody", read "b" "getOriginatingAddress",
       ⟨none, .binary (.named "c" "int") .add (.named "a" "int") (.named "b" "int")⟩]⟩
    let tags (order : Enumeration) :=
      ((ordered (fun _ => order) .empty 1 body 3).environment.tagsOf (.named "c" "int")).toList
    tags forwards = ["#sms/#body", "#sms/#sender"] ∧
      tags backwards = ["#sms/#sender", "#sms/#body"] := by
  decide +kernel

end Visit

end Provenance
