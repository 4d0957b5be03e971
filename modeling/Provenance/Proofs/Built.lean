import Provenance.Proofs.Origin

/-!
The values that can be made at all. Every value comes from a snapshot of such values, and is changed
afterwards by tags and annotations only; nothing that stores, copies, merges or recognizes values
has another way to make one. So a property of values that these few ways keep is a property of every
value that an analysis ever holds.
-/

set_option autoImplicit false

namespace Provenance

namespace SymbolicValue

/-- Values made over snapshots of such values, enumerated in any order, and such values with further
tags or annotations. -/
inductive Built : SymbolicValue → Prop where
  | make (order : Enumeration) (e : Expression) {s : Snapshot}
      (held : ∀ entry ∈ s.entries, ∀ v ∈ entry.2, Built v) : Built (@make order e s)
  | annotate {v : SymbolicValue} (note : String) (h : Built v) : Built (v.annotate note)
  | addTag {v : SymbolicValue} (t : Tag) (h : Built v) : Built (v.addTag t)
  | addTags {v : SymbolicValue} (ts : TagSet) (h : Built v) : Built (v.addTags ts)

def AllBuilt (values : List SymbolicValue) : Prop := ∀ v ∈ values, v.Built

theorem AllBuilt.nil : AllBuilt [] := by simp [AllBuilt]

theorem AllBuilt.singleton {v : SymbolicValue} (h : v.Built) : AllBuilt [v] := by
  simpa [AllBuilt] using h

theorem AllBuilt.map {values : List SymbolicValue} (h : AllBuilt values)
    {f : SymbolicValue → SymbolicValue} (hf : ∀ v, v.Built → (f v).Built) :
    AllBuilt (values.map f) := by
  intro u hu
  obtain ⟨v, hv, rfl⟩ := List.mem_map.1 hu
  exact hf v (h v hv)

theorem leaf_eq_make (e : Expression) : leaf e = @make .ascending e .empty := rfl

theorem built_leaf (e : Expression) : (leaf e).Built := by
  rw [leaf_eq_make]
  exact .make _ e (by simp [Table.empty])

theorem AllBuilt.leaf (e : Expression) : AllBuilt [SymbolicValue.leaf e] :=
  .singleton (built_leaf e)

@[simp] theorem size_annotate (v : SymbolicValue) (note : String) :
    (v.annotate note).size = v.size := by
  unfold annotate
  split <;> rfl

@[simp] theorem tags_annotate (v : SymbolicValue) (note : String) :
    (v.annotate note).tags = v.tags := by
  unfold annotate
  split <;> rfl

@[simp] theorem snapshot_annotate (v : SymbolicValue) (note : String) :
    (v.annotate note).snapshot = v.snapshot := by
  unfold annotate
  split <;> rfl

/-- A value keeps the whole snapshot that it is made over, or nothing of it. -/
theorem mem_snapshot_make {order : Enumeration} {e : Expression} {s : Snapshot}
    {entry : Operand × List SymbolicValue} (h : entry ∈ (@make order e s).snapshot.entries) :
    entry ∈ s.entries ∧ Snapshot.size s + 1 ≤ sizeLimit := by
  unfold make at h
  split at h
  next => simp [Table.empty] at h
  next hsmall => exact ⟨h, Nat.le_of_not_lt hsmall⟩

theorem Built.held {v w : SymbolicValue} (h : v.Built) {entry : Operand × List SymbolicValue}
    (he : entry ∈ v.snapshot.entries) (hw : w ∈ entry.2) : w.Built := by
  induction h with
  | make order e held => exact held entry (mem_snapshot_make he).1 w hw
  | annotate note h ih => exact ih (by simpa using he)
  | addTag t h ih => exact ih he
  | addTags ts h ih => exact ih he

/-- The first value is found in the second by going through that many snapshots. -/
inductive Within : Nat → SymbolicValue → SymbolicValue → Prop where
  | here {v w : SymbolicValue} {entry : Operand × List SymbolicValue}
      (he : entry ∈ v.snapshot.entries) (hw : w ∈ entry.2) : Within 1 w v
  | deeper {depth : Nat} {v u w : SymbolicValue} {entry : Operand × List SymbolicValue}
      (he : entry ∈ v.snapshot.entries) (hu : u ∈ entry.2) (h : Within depth w u) :
      Within (depth + 1) w v

theorem AllBuilt.addResult {results : List SymbolicValue} (hr : AllBuilt results)
    {v : SymbolicValue} (hv : v.Built) : AllBuilt (addResult results v) :=
  forall_addResult (fun _ ts h => .addTags ts h) hr hv

theorem AllBuilt.foldl_addResult {values results : List SymbolicValue} (hr : AllBuilt results)
    (hv : AllBuilt values) : AllBuilt (values.foldl SymbolicValue.addResult results) := by
  induction values generalizing results with
  | nil => exact hr
  | cons v rest ih =>
    have hrest : AllBuilt rest := fun u hu => hv u (by simp [hu])
    exact ih (hr.addResult (hv v (by simp))) hrest

theorem AllBuilt.distinct {values : List SymbolicValue} (h : AllBuilt values) :
    AllBuilt (distinct values) :=
  AllBuilt.nil.foldl_addResult h

theorem AllBuilt.collapse {values : List SymbolicValue} (h : AllBuilt values) (limit : Nat)
    (o : Operand) : AllBuilt (Environment.collapse limit o values) := by
  unfold Environment.collapse
  split
  · exact .singleton (.addTags _ (.annotate _ (built_leaf _)))
  · exact h

end SymbolicValue

open SymbolicValue

namespace Environment

def Built (env : Environment) : Prop := ∀ v, env.Stores v → v.Built

theorem Built.new (limit : Nat) : (new limit).Built :=
  fun v hv => absurd hv (not_stores_new limit v)

theorem Built.update {env : Environment} (h : env.Built) (o : Operand)
    {values : List SymbolicValue} (hv : AllBuilt values) (condition : Option Condition) :
    (env.update o values condition).Built := by
  intro v hstored
  rcases hstored.of_update with hold | hnew
  · exact h v hold
  · exact hv.collapse env.limit o v hnew

section

variable {env : Environment}

theorem Built.resolve? (h : env.Built) {o : Operand} {values : List SymbolicValue}
    (hr : env.resolve? o = some values) : AllBuilt values :=
  fun v hv => h v (stores_of_resolve? hr hv)

theorem Built.copied (h : env.Built) (o : Operand) (e : Expression) :
    AllBuilt (Effect.copied env o (.leaf e)) := by
  unfold Effect.copied
  cases hl : o.isLiteral with
  | true =>
    obtain ⟨c, hc⟩ := env.resolveOperand?_of_literal hl
    rw [hc]
    exact .leaf _
  | false =>
    rw [resolveOperand?_of_not_literal env hl]
    cases hr : env.resolve? o with
    | none => exact .leaf e
    | some values => exact h.resolve? hr

theorem Built.resolveOrUnknown (h : env.Built) (o : Operand) :
    AllBuilt (env.resolveOrUnknown o) := by
  rcases env.resolveOrUnknown_cases o with hr | hr
  · rw [hr]
    exact .leaf _
  · rw [hr]
    exact h.copied o _

theorem Built.capture (h : env.Built) (operands : List Operand) :
    ∀ e ∈ (env.capture operands).entries, AllBuilt e.2 :=
  fun _ he => h.resolve? (mem_capture.1 he).2.2

theorem Built.makeIn [order : Enumeration] (h : env.Built) (e : Expression) :
    (makeIn env e).Built :=
  .make order e (h.capture e.operands)

theorem Built.describeIn [order : Enumeration] (h : env.Built) (call : CallSite) :
    (call.describeIn env).Built :=
  .make order call.expression (h.capture call.operands)

end

end Environment

open Environment

def Recognition.AllBuilt : Recognition → Prop
  | .ok (some values) => SymbolicValue.AllBuilt values
  | _ => True

namespace Recognizer

def Builds (r : Recognizer) : Prop :=
  ∀ call env, env.Built → Recognition.AllBuilt (r.recognize call env)

theorem allBuilt_propagate (env : Environment) (o : Operand) {values : List SymbolicValue}
    (h : AllBuilt values) : AllBuilt (propagate env o values) :=
  h.map fun _ hv => .addTags _ hv

theorem allBuilt_foldl_propagate (env : Environment) (os : List Operand)
    {values : List SymbolicValue} (h : AllBuilt values) :
    AllBuilt (os.foldl (fun values a => propagate env a values) values) := by
  induction os generalizing values with
  | nil => exact h
  | cons o rest ih => exact ih (allBuilt_propagate env o h)

theorem allBuilt_passOn {env : Environment} (h : env.Built) (o : Operand) :
    AllBuilt (passOn env o) :=
  allBuilt_propagate env o (h.resolveOrUnknown o)

theorem allBuilt_passReceiverOn {env : Environment} (h : env.Built) (call : CallSite) :
    Recognition.AllBuilt (passReceiverOn call env) := by
  unfold passReceiverOn
  split
  · trivial
  · exact allBuilt_passOn h _

theorem builds_dateFormat : dateFormat.Builds := by
  intro call env h
  simp only [dateFormat]
  split
  · split
    · split
      · exact allBuilt_foldl_propagate env call.arguments (h.resolveOrUnknown _)
      · trivial
    · trivial
  · trivial

theorem builds_toLowerCase : toLowerCase.Builds := by
  intro call env h
  simp only [toLowerCase]
  split
  · exact allBuilt_passReceiverOn h call
  · trivial

theorem builds_toText : toText.Builds := by
  intro call env h
  simp only [toText]
  split
  · exact allBuilt_passReceiverOn h call
  · trivial

section

variable [order : Enumeration]

theorem allBuilt_foldOrDescribe {env : Environment} (h : env.Built) (call : CallSite)
    (arguments : List Operand) (base : Operand) (fold : Constant → Option Constant) :
    AllBuilt ((env.resolveOrUnknown base).map
      (foldOrDescribe call (env.capture arguments) base fold)) := by
  apply (h.resolveOrUnknown base).map
  intro v hv
  cases hc : v.constant?.bind fold with
  | some c =>
    rw [foldOrDescribe_of_some call _ base hc]
    exact built_leaf _
  | none =>
    rw [foldOrDescribe_of_none call _ base hc]
    refine .make order call.expression ?_
    intro entry hentry
    rcases Table.mem_insert hentry with rfl | hentry
    · exact AllBuilt.singleton hv
    · exact h.capture arguments entry hentry

theorem builds_messageSource : messageSource.Builds := by
  intro call env h
  simp only [messageSource]
  split
  · trivial
  · exact .singleton (.addTag _ (h.describeIn call))

theorem builds_stringConstructor : stringConstructor.Builds := by
  intro call env h
  have hconstructed : AllBuilt (constructed call env) := by
    unfold constructed
    split
    · exact .leaf _
    · split
      · exact .leaf _
      · split
        · exact .leaf _
        · split
          · exact .singleton (h.describeIn call)
          · exact allBuilt_passOn h _
    · exact .singleton (h.describeIn call)
  simp only [stringConstructor]
  split
  · split
    · trivial
    · exact hconstructed
  · trivial

theorem builds_append : append.Builds := by
  intro call env h
  simp only [append]
  split
  · split
    · trivial
    · rename_i base argument _ _
      have hbuilt := allBuilt_foldOrDescribe h call [argument] base
        fun c => argument.literal?.map c.concat
      exact allBuilt_propagate env argument (allBuilt_propagate env base hbuilt)
    · exact .singleton (h.describeIn call)
  · trivial

theorem builds_substring : substring.Builds := by
  intro call env h
  simp only [substring]
  split
  · split
    · trivial
    · exact allBuilt_foldOrDescribe h call call.arguments _ _
  · trivial

theorem builds_valueOf : valueOf.Builds := by
  intro call env h
  simp only [valueOf]
  split
  · split
    · split
      · exact .leaf _
      · exact allBuilt_passOn h _
    · exact .singleton (h.describeIn call)
  · trivial

theorem builds_standard : ∀ r ∈ standard, r.Builds := by
  simp only [standard, List.forall_mem_cons]
  exact ⟨builds_messageSource, builds_stringConstructor, builds_append, builds_substring,
    builds_valueOf, builds_dateFormat, builds_toLowerCase, builds_toText, by simp⟩

end

end Recognizer

theorem Chain.allBuilt_consult {chain : Chain} (hchain : ∀ r ∈ chain, r.Builds)
    {env : Environment} (h : env.Built) (call : CallSite) :
    Recognition.AllBuilt (Chain.consult call env chain) := by
  induction chain with
  | nil => trivial
  | cons r rest ih =>
    have hrest : ∀ q ∈ rest, q.Builds := fun q hq => hchain q (by simp [hq])
    have hanswer := hchain r (by simp) call env h
    unfold Chain.consult
    split
    · trivial
    · rename_i hvalues
      rw [hvalues] at hanswer
      exact AllBuilt.distinct hanswer
    · exact ih hrest

theorem Chain.allBuilt_recognize {chain : Chain} (hchain : ∀ r ∈ chain, r.Builds)
    {env : Environment} (h : env.Built) (call : CallSite) :
    Recognition.AllBuilt (chain.recognize call env) := by
  unfold Chain.recognize
  split
  · trivial
  · exact Chain.allBuilt_consult hchain h call

namespace Effect

section

variable [order : Enumeration] {chain : Chain} (hchain : ∀ r ∈ chain, r.Builds)
  {env : Environment} (h : env.Built)

include hchain h

theorem allBuilt_writes (knownName : Method → KnownName) (caller : Method) (i : Instruction) :
    ∀ w ∈ (ofInstruction chain knownName env caller i).writes, AllBuilt w.2 := by
  intro w hw
  rcases values_cases hw with ⟨e, hv⟩ | ⟨e, hv⟩ | ⟨o, e, hv⟩ | ⟨call, hv⟩
  · rw [hv]
    exact .leaf e
  · rw [hv]
    exact .singleton (h.makeIn e)
  · rw [hv]
    exact h.copied o e
  · have hanswer := Chain.allBuilt_recognize hchain h call
    rw [hv] at hanswer
    exact hanswer

omit hchain

theorem allBuilt_returns (knownName : Method → KnownName) (caller : Method) (i : Instruction) :
    AllBuilt (ofInstruction chain knownName env caller i).returns := by
  cases i with
  | invoke result method receiver arguments =>
    simp only [ofInstruction, ofCall]
    split <;> exact .nil
  | giveBack value =>
    cases value with
    | none => exact .nil
    | some value => exact h.copied value _
  | _ => exact .nil

end

end Effect

namespace Visit

structure Built (v : Visit) : Prop where
  stored : v.environment.Built
  returned : AllBuilt v.returns

theorem built_writeAll {env : Environment} (h : env.Built) (condition : Option Condition)
    {writes : List (Operand × List SymbolicValue)} (hw : ∀ w ∈ writes, AllBuilt w.2) :
    (writeAll env condition writes).Built := by
  induction writes generalizing env with
  | nil => exact h
  | cons w rest ih =>
    have hrest : ∀ u ∈ rest, AllBuilt u.2 := fun u hu => hw u (by simp [hu])
    cases hl : w.1.isLiteral with
    | true =>
      rw [writeAll_literal env condition rest hl]
      exact ih h hrest
    | false =>
      rw [writeAll_cons env condition rest hl]
      exact ih (h.update w.1 (hw w (by simp)) condition) hrest

section

variable [order : Enumeration] {chain : Chain} (hchain : ∀ r ∈ chain, r.Builds)

include hchain

theorem Built.step {v : Visit} (h : v.Built) (caller : Method) (s : Statement) :
    (v.step chain caller s).Built where
  stored := built_writeAll h.stored s.guard
    (Effect.allBuilt_writes hchain h.stored _ caller s.instruction)
  returned := h.returned.foldl_addResult (Effect.allBuilt_returns h.stored _ caller s.instruction)

theorem Built.run {v : Visit} (h : v.Built) (caller : Method) (statements : List Statement) :
    (v.run chain caller statements).Built := by
  induction statements generalizing v with
  | nil => exact h
  | cons s rest ih => exact ih (h.step hchain caller s)

theorem built_upTo (names : KnownName.Cache) (limit : Nat) (body : Body) (n : Nat) :
    (upTo chain names limit body n).Built :=
  Built.run hchain ⟨Built.new limit, .nil⟩ body.method (body.statements.take n)

end

end Visit

end Provenance
