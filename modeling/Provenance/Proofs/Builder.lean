import Provenance.Proofs.Transfer

/-!
Builders that are fed literals. A body that creates a builder, appends literals to it, takes its
text and returns it is evaluated completely. The main statement follows such a body call by call:
the builder always holds one constant, the text appended so far. Literals are looked up for tags
like any operand, under their printed forms; that none are found rests on no value having any.
-/

set_option autoImplicit false

namespace Provenance

theorem Method.knownName_of_builder {m : Method} (h : m.className ∈ KnownName.builderClasses)
    {k : KnownName} (hk : KnownName.ofBuilder m.name = some k) : m.knownName = k := by
  have hclass : m.className ≠ KnownName.stringClass := by
    rintro hs
    simp [hs, KnownName.stringClass, KnownName.builderClasses] at h
  simp [Method.knownName, Method.modelled?, hclass, h, hk]

theorem Environment.WellFormed.text_of_byText {limit : Nat} {env : Environment}
    (h : env.WellFormed limit) {text : String} {k : Operand}
    (hk : env.byText.get? text = some k) : k.text = text :=
  (h.recorded _ (Table.mem_of_get? hk)).2

/-- A visit that has met no tags, reported no flow and returned nothing. -/
structure Visit.Quiet (limit : Nat) (v : Visit) : Prop where
  shape : v.environment.WellFormed limit
  untagged : ∀ o, v.environment.tagsAt o = ∅
  flows : v.flows = []
  returns : v.returns = []

structure Visit.Knows (limit : Nat) (o : Operand) (c : Constant) (v : Visit) : Prop
    extends v.Quiet limit where
  resolved : v.environment.resolve? o = some [.constant c]

namespace Visit

theorem quiet_start (limit : Nat) (names : KnownName.Cache) : (start limit names).Quiet limit where
  shape := Environment.wellFormed_new limit
  untagged o := by
    rw [Environment.tagsAt_eq]
    exact valueTags_nil
  flows := rfl
  returns := rfl

theorem untagged_writeAll {limit : Nat} {env : Environment} (hshape : env.WellFormed limit)
    (h : ∀ o, env.tagsAt o = ∅) (condition : Option Condition)
    {writes : List (Operand × List SymbolicValue)} (hw : ∀ w ∈ writes, valueTags w.2 = ∅)
    (o : Operand) : (writeAll env condition writes).tagsAt o = ∅ := by
  by_cases hfind : env.Finds (writes.map (·.1)) o
  · obtain ⟨w, hmem, hres⟩ := resolve?_writeAll_of_finds condition hfind
    rw [Environment.tagsAt_of_resolve? hres, valueTags_collapse, hw w hmem]
  · have hres :=
      resolve?_writeAll_of_not_finds condition (fun _ hk => hshape.text_of_byText hk) hfind
    rw [Environment.tagsAt_eq, hres, ← Environment.tagsAt_eq, h o]

section

variable [Enumeration] {limit : Nat} {v : Visit} (caller : Method)

theorem Quiet.step (h : v.Quiet limit) {s : Statement}
    (hwrites : ∀ w ∈ (Effect.standard v.environment caller s.instruction).writes,
      valueTags w.2 = ∅)
    (hflows : (Effect.standard v.environment caller s.instruction).flows = [])
    (hreturns : (Effect.standard v.environment caller s.instruction).returns = []) :
    (v.step Recognizer.standard caller s).Quiet limit where
  shape := wellFormed_step Recognizer.standard caller h.shape s
  untagged := by
    rw [environment_step]
    exact untagged_writeAll h.shape h.untagged s.guard hwrites
  flows := by rw [flows_step, h.flows, hflows, List.append_nil]
  returns := by rw [returns_step, h.returns, hreturns, List.foldl_nil]

theorem Quiet.call (h : v.Quiet limit) (hlimit : 1 ≤ limit) (guard : Option Condition)
    {result : Option Operand} {method : Method} {receiver : Option Operand}
    {arguments : List Operand} {c : Constant}
    (hverdict : (CallSite.named method receiver arguments).verdict = .modelled)
    (hvalues : (CallSite.named method receiver arguments).modelValues v.environment =
      [.constant c])
    {y : Operand} (hy : y.isLiteral = false)
    (htarget : y ∈ (Instruction.invoke result method receiver arguments).targets) :
    (v.step Recognizer.standard caller ⟨guard, .invoke result method receiver arguments⟩).Knows
      limit y c := by
  have hwrites : ∀ w ∈ (Effect.standard v.environment caller
      (.invoke result method receiver arguments)).writes, w.2 = [.constant c] := by
    intro w hw
    have hsame := Effect.values_ofCall (.named method receiver arguments) hw
    rw [hverdict, hvalues] at hsame
    exact hsame
  have hroom : 1 ≤ v.environment.limit := h.shape.limit_eq ▸ hlimit
  refine ⟨h.step caller ?_ ?_ ?_,
    resolve?_step_of_same_values caller hroom hy htarget hwrites⟩
  · intro w hw
    rw [hwrites w hw, valueTags_constant]
  · rw [Effect.flows_standard, if_neg (by simp [hverdict])]
  · exact Effect.returns_standard ..

end

end Visit

inductive BuilderStart where
  | nothing
  | capacity (n : Int64)
  | text (s : String)

def BuilderStart.arguments : BuilderStart → List Operand
  | .nothing => []
  | .capacity n => [.literal (.int n)]
  | .text s => [.literal (.str s)]

def BuilderStart.initial : BuilderStart → String
  | .text s => s
  | _ => ""

structure Signature where
  parameterTypes : List String
  returnType : String

/-- A call that appends a literal to a builder. The builder is returned too, and may be stored
anywhere. -/
structure Appending where
  guard : Option Condition
  result : Option Operand
  signature : Signature
  literal : Constant

/-- A body that puts a text together with a builder and returns it. -/
structure Building where
  caller : Method
  className : String
  isBuilder : className ∈ KnownName.builderClasses
  builder : Operand
  builder_notLiteral : builder.isLiteral = false
  createGuard : Option Condition
  constructGuard : Option Condition
  constructSignature : Signature
  start : BuilderStart
  appendings : List Appending
  text : Operand
  text_notLiteral : text.isLiteral = false
  textGuard : Option Condition
  textSignature : Signature
  returnGuard : Option Condition

namespace Building

def method (b : Building) (name : String) (s : Signature) : Method :=
  ⟨b.className, name, s.parameterTypes, s.returnType⟩

def create (b : Building) : Statement := ⟨b.createGuard, .create b.builder b.className⟩

def construct (b : Building) : Statement :=
  ⟨b.constructGuard, .invoke none (b.method "<init>" b.constructSignature) (some b.builder)
    b.start.arguments⟩

def append (b : Building) (a : Appending) : Statement :=
  ⟨a.guard, .invoke a.result (b.method "append" a.signature) (some b.builder)
    [.literal a.literal]⟩

def takeText (b : Building) : Statement :=
  ⟨b.textGuard, .invoke (some b.text) (b.method "toString" b.textSignature) (some b.builder) []⟩

def giveBack (b : Building) : Statement := ⟨b.returnGuard, .giveBack (some b.text)⟩

def body (b : Building) : Body where
  method := b.caller
  statements :=
    b.create :: b.construct :: (b.appendings.map b.append ++ [b.takeText, b.giveBack])

def textAfter (b : Building) (n : Nat) : String :=
  b.start.initial ++ String.join ((b.appendings.take n).map fun a => a.literal.render)

section

variable [Enumeration] {limit : Nat} {v : Visit} (b : Building)

theorem quiet_create (h : v.Quiet limit) :
    (v.step Recognizer.standard b.caller b.create).Quiet limit := by
  refine h.step b.caller ?_ rfl rfl
  intro w hw
  rw [List.mem_singleton.1 hw, Environment.valueTags_makeIn]
  exact Environment.tagsAmong_nil _

theorem knows_construct (hlimit : 1 ≤ limit) (h : v.Quiet limit) :
    (v.step Recognizer.standard b.caller b.construct).Knows limit b.builder
      (.str b.start.initial) := by
  have hname : (b.method "<init>" b.constructSignature).knownName = .construct :=
    Method.knownName_of_builder b.isBuilder rfl
  have hclass : b.className ≠ KnownName.stringClass :=
    (Method.builder_of_construct hname).2 b.isBuilder
  have hverdict : (CallSite.named (b.method "<init>" b.constructSignature) (some b.builder)
      b.start.arguments).verdict = .modelled := by
    apply CallSite.verdict_of_known <;> simp [hname]
  refine h.call b.caller hlimit _ hverdict ?_ b.builder_notLiteral ?_
  · simp only [CallSite.modelValues, CallSite.named, hname]
    cases b.start <;> simp [Recognizer.constructed, BuilderStart.arguments, BuilderStart.initial,
      Operand.literal?, Operand.staticType, Constant.staticType, method, hclass]
  · simp only [Instruction.targets, CallSite.targets, hverdict]
    simp [CallSite.named, hname, KnownName.updatesReceiver]

theorem knows_append (hlimit : 1 ≤ limit) {text : String} (h : v.Knows limit b.builder (.str text))
    (a : Appending) :
    (v.step Recognizer.standard b.caller (b.append a)).Knows limit b.builder
      (.str (text ++ a.literal.render)) := by
  have hname : (b.method "append" a.signature).knownName = .append :=
    Method.knownName_of_builder b.isBuilder rfl
  have hverdict : (CallSite.named (b.method "append" a.signature) (some b.builder)
      [.literal a.literal]).verdict = .modelled := by
    apply CallSite.verdict_of_known <;> simp [hname]
  have hcandidates : v.environment.resolveOrUnknown b.builder = [.constant (.str text)] := by
    simp [Environment.resolveOrUnknown,
      Environment.resolveOperand?_of_not_literal _ b.builder_notLiteral, h.resolved]
  refine h.call b.caller hlimit _ hverdict ?_ b.builder_notLiteral ?_
  · simp only [CallSite.modelValues, CallSite.named, hname, Recognizer.appended,
      Environment.propagate_of_untagged (h.untagged _), hcandidates]
    rfl
  · simp only [Instruction.targets, CallSite.targets, hverdict]
    simp [CallSite.named, hname, KnownName.updatesReceiver]

theorem knows_run_append (hlimit : 1 ≤ limit) {text : String}
    (h : v.Knows limit b.builder (.str text)) (appendings : List Appending) :
    (v.run Recognizer.standard b.caller (appendings.map b.append)).Knows limit b.builder
      (.str (text ++ String.join (appendings.map fun a => a.literal.render))) := by
  induction appendings generalizing v text with
  | nil => simpa [Visit.run] using h
  | cons a rest ih =>
    have hrest := ih (b.knows_append hlimit h a)
    rw [String.append_assoc, ← String.join_cons] at hrest
    exact hrest

theorem knows_takeText (hlimit : 1 ≤ limit) {text : String}
    (h : v.Knows limit b.builder (.str text)) :
    (v.step Recognizer.standard b.caller b.takeText).Knows limit b.text (.str text) := by
  have hname : (b.method "toString" b.textSignature).knownName = .toText :=
    Method.knownName_of_builder b.isBuilder rfl
  have hverdict : (CallSite.named (b.method "toString" b.textSignature) (some b.builder)
      []).verdict = .modelled := by
    apply CallSite.verdict_of_known <;> simp [hname]
  refine h.call b.caller hlimit _ hverdict ?_ b.text_notLiteral ?_
  · simp [CallSite.modelValues, CallSite.named, hname, Recognizer.passOn,
      Environment.propagate_of_untagged (h.untagged _), Environment.resolveOrUnknown,
      Environment.resolveOperand?_of_not_literal _ b.builder_notLiteral, h.resolved]
  · simp [Instruction.targets, CallSite.targets, hverdict]

theorem returns_giveBack {text : String} (h : v.Knows limit b.text (.str text)) :
    (v.step Recognizer.standard b.caller b.giveBack).returns = [.constant (.str text)] ∧
      (v.step Recognizer.standard b.caller b.giveBack).flows = [] := by
  have hcopied : Effect.copied v.environment b.text (.returned b.text) =
      [.constant (.str text)] := by
    simp [Effect.copied, Environment.resolveOperand?_of_not_literal _ b.text_notLiteral, h.resolved]
  constructor
  · rw [Visit.returns_step, h.returns]
    simp [giveBack, Effect.standard, Effect.ofInstruction, Effect.ofReturn, hcopied,
      SymbolicValue.addResult]
  · rw [Visit.flows_step, h.flows]
    rfl

end

section

variable [Enumeration] (names : KnownName.Cache) {limit : Nat} (b : Building)

theorem knows_upTo (hlimit : 1 ≤ limit) {n : Nat} (hn : n ≤ b.appendings.length) :
    (Visit.upTo Recognizer.standard names limit b.body (n + 2)).Knows limit b.builder
      (.str (b.textAfter n)) := by
  have htake : b.body.statements.take (n + 2) =
      b.create :: b.construct :: (b.appendings.take n).map b.append := by
    have hlength : n ≤ (b.appendings.map b.append).length := by simpa using hn
    simp [body, List.take_append_of_le_length hlength, List.map_take]
  rw [Visit.upTo, htake]
  -- Only from the constructor on does the builder hold a constant.
  have hcreated := b.quiet_create (Visit.quiet_start limit names)
  exact b.knows_run_append hlimit (b.knows_construct hlimit hcreated) _

/-- A builder that is fed literals is evaluated: after each of them it holds the text so far as one
constant without tags, and the whole text is all that the body returns. -/
theorem returns_joined_literals (hlimit : 1 ≤ limit) :
    let visit := Visit.upTo Recognizer.standard names limit b.body
    (∀ n ≤ b.appendings.length, (visit (n + 2)).environment.resolve? b.builder =
      some [.constant (.str (b.textAfter n))]) ∧
    (visit b.body.statements.length).returns =
      [.constant (.str (b.textAfter b.appendings.length))] ∧
    (visit b.body.statements.length).flows = [] := by
  intro visit
  refine ⟨fun n hn => (b.knows_upTo names hlimit hn).resolved, ?_⟩
  have hfull := b.knows_upTo names hlimit (Nat.le_refl _)
  have hlength : b.body.statements.length = b.appendings.length + 4 := by simp [body]
  have htext : b.body.statements[b.appendings.length + 2]? = some b.takeText := by simp [body]
  have hreturn : b.body.statements[b.appendings.length + 3]? = some b.giveBack := by
    simp [body]
  have hlast : visit b.body.statements.length =
      ((visit (b.appendings.length + 2)).step Recognizer.standard b.caller b.takeText).step
        Recognizer.standard b.caller b.giveBack := by
    simp only [visit, hlength]
    rw [Visit.upTo_succ _ _ _ hreturn, Visit.upTo_succ _ _ _ htext]
    rfl
  rw [hlast]
  exact b.returns_giveBack (b.knows_takeText hlimit hfull)

end

/-- A number, a truth value and a character are appended to a text. The second call stores its
result in a variable that prints like the builder, the third in a literal. -/
def pageBuilding : Building where
  caller := ⟨"com.example.Notes", "page", [], "java.lang.String"⟩
  className := "java.lang.StringBuffer"
  isBuilder := by decide
  builder := .named "r1" "java.lang.StringBuffer"
  builder_notLiteral := rfl
  createGuard := none
  constructGuard := some ⟨"i0 > 0"⟩
  constructSignature := ⟨["java.lang.String"], "void"⟩
  start := .text "p"
  appendings :=
    [⟨none, none, ⟨["int"], "java.lang.StringBuffer"⟩, .int (-7)⟩,
     ⟨some ⟨"i0 > 1"⟩, some (.named "r1" "java.lang.Object"),
      ⟨["boolean"], "java.lang.StringBuffer"⟩, .trueLiteral⟩,
     ⟨none, some (.literal .null), ⟨["char"], "java.lang.StringBuffer"⟩, .char 'x'⟩]
  text := .named "r2" "java.lang.String"
  text_notLiteral := rfl
  textGuard := none
  textSignature := ⟨[], "java.lang.String"⟩
  returnGuard := some ⟨"i0 > 0"⟩

theorem returns_joined_page :
    let visit := Visit.upTo Recognizer.standard .empty 1 pageBuilding.body
    (visit 4).environment.resolve? (.named "r1" "java.lang.StringBuffer") =
        some [.constant (.str "p-7true")] ∧
      (visit 7).returns = [.constant (.str "p-7truex")] ∧ (visit 7).flows = [] := by
  intro visit
  obtain ⟨hprefixes, hreturns, hflows⟩ :=
    pageBuilding.returns_joined_literals .empty (Nat.le_refl 1)
  have htwo : pageBuilding.textAfter 2 = "p-7true" := by decide +kernel
  have hthree : pageBuilding.textAfter 3 = "p-7truex" := by decide +kernel
  refine ⟨?_, hthree ▸ hreturns, hflows⟩
  rw [← htwo]
  exact hprefixes 2 (by decide)

end Building

end Provenance
