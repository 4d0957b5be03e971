import Provenance.Analyzer

/-!
Bodies are analyzed independently of each other. An analysis carries one thing from body to body,
the names it has looked up, and a looked up name is always the one that the method has. So a report
is put together from what each body gives on its own, however the bodies are grouped into programs.
-/

set_option autoImplicit false

namespace Provenance

namespace KnownName.Cache

def methods (c : Cache) : List Method := c.entries.map (·.1)

@[simp] theorem methods_empty : empty.methods = [] := rfl

def lookups (c : Cache) : List Method → List KnownName × Cache
  | [] => ([], c)
  | m :: rest =>
    let first := c.lookup m
    let others := first.2.lookups rest
    (first.1 :: others.1, others.2)

theorem lookups_fst (c : Cache) (ms : List Method) :
    (c.lookups ms).1 = ms.map Method.knownName := by
  induction ms generalizing c with
  | nil => rfl
  | cons m rest ih => simp [lookups, ih]

theorem lookups_append (c : Cache) (ms ms' : List Method) :
    (c.lookups (ms ++ ms')).2 = ((c.lookups ms).2.lookups ms').2 := by
  induction ms generalizing c with
  | nil => rfl
  | cons m rest ih => simp [lookups, ih]

theorem methods_lookup (c : Cache) (m : Method) :
    (c.lookup m).2.methods = if m ∈ c.methods then c.methods else m :: c.methods := by
  unfold lookup
  split
  next e hfound =>
    have hkey : e.1 = m := by simpa using List.find?_some hfound
    have hmem : m ∈ c.methods :=
      List.mem_map.2 ⟨e, List.mem_of_find?_eq_some hfound, hkey⟩
    rw [if_pos hmem]
  next hnone =>
    have hnew : m ∉ c.methods := by
      intro hmem
      obtain ⟨e, he, hkey⟩ := List.mem_map.1 hmem
      have hother := List.find?_eq_none.1 hnone e he
      simp [hkey] at hother
    rw [if_neg hnew]
    rfl

theorem mem_methods_lookups {c : Cache} {ms : List Method} {m : Method} :
    m ∈ (c.lookups ms).2.methods ↔ m ∈ c.methods ∨ m ∈ ms := by
  induction ms generalizing c with
  | nil => simp [lookups]
  | cons n rest ih =>
    have hstep : m ∈ (c.lookup n).2.methods ↔ m ∈ c.methods ∨ m = n := by
      rw [methods_lookup]
      split
      next hn =>
        constructor
        · exact Or.inl
        · rintro (h | rfl)
          · exact h
          · exact hn
      next => simp [or_comm]
    have hrest := ih (c := (c.lookup n).2)
    rw [hstep] at hrest
    simpa [lookups, or_assoc] using hrest

theorem nodup_methods_lookups {c : Cache} (h : c.methods.Nodup) (ms : List Method) :
    (c.lookups ms).2.methods.Nodup := by
  induction ms generalizing c with
  | nil => exact h
  | cons m rest ih =>
    apply ih
    rw [methods_lookup]
    split
    next => exact h
    next hnew => exact List.nodup_cons.2 ⟨hnew, h⟩

/-- The cache that some calls leave behind: it knows each called method once, and further lookups
are answered as if there were no cache. -/
structure Reflects (c : Cache) (calls : List Method) : Prop where
  nodup : c.methods.Nodup
  mem : ∀ m, m ∈ c.methods ↔ m ∈ calls
  answers : ∀ ms, (c.lookups ms).1 = ms.map Method.knownName

theorem reflects_lookups (calls : List Method) : Reflects (empty.lookups calls).2 calls where
  nodup := nodup_methods_lookups (by simp) calls
  mem m := by simp [mem_methods_lookups]
  answers ms := lookups_fst _ ms

end KnownName.Cache

def Instruction.calls : Instruction → List Method
  | .invoke _ method _ _ => [method]
  | _ => []

def Statement.calls (statements : List Statement) : List Method :=
  statements.flatMap fun s => s.instruction.calls

namespace Visit

theorem namesAfter_eq (v : Visit) (i : Instruction) :
    v.namesAfter i = (v.names.lookups i.calls).2 := by
  cases i <;> rfl

theorem names_run [Enumeration] (chain : Chain) (caller : Method) (v : Visit)
    (statements : List Statement) :
    (v.run chain caller statements).names =
      (v.names.lookups (Statement.calls statements)).2 := by
  induction statements generalizing v with
  | nil => rfl
  | cons s rest ih =>
    have hnext : (v.step chain caller s).names = (v.names.lookups s.instruction.calls).2 :=
      v.namesAfter_eq s.instruction
    have hrun := ih (v.step chain caller s)
    rw [hnext, ← KnownName.Cache.lookups_append] at hrun
    exact hrun

structure SameFindings (v v' : Visit) : Prop where
  environment : v.environment = v'.environment
  returns : v.returns = v'.returns
  flows : v.flows = v'.flows

theorem SameFindings.step [Enumeration] {v v' : Visit} (h : SameFindings v v') (chain : Chain)
    (caller : Method) (s : Statement) :
    SameFindings (v.step chain caller s) (v'.step chain caller s) := by
  obtain ⟨henvironment, hreturns, hflows⟩ := h
  constructor
  · simp [Visit.step, perform, henvironment]
  · simp [Visit.step, perform, henvironment, hreturns]
  · simp [Visit.step, perform, henvironment, hflows]

theorem SameFindings.run [Enumeration] {v v' : Visit} (h : SameFindings v v') (chain : Chain)
    (caller : Method) (statements : List Statement) :
    SameFindings (v.run chain caller statements) (v'.run chain caller statements) := by
  induction statements generalizing v v' with
  | nil => exact h
  | cons s rest ih => exact ih (h.step chain caller s)

end Visit

namespace Options

/-- The methods that an analysis is asked for: all of them, or those with the given name, the given
class and name, or the given text. -/
def Asks (options : Options) (m : Method) : Prop :=
  ∀ selection ∈ options.singleMethod,
    selection = m.name ∨ selection = m.className ++ "." ++ m.name ∨ selection = m.text

instance (options : Options) (m : Method) : Decidable (options.Asks m) :=
  inferInstanceAs (Decidable (∀ selection ∈ options.singleMethod,
    selection = m.name ∨ selection = m.className ++ "." ++ m.name ∨ selection = m.text))

def asked (options : Options) (bodies : List Body) : List Body :=
  bodies.filter fun body => options.Asks body.method

/-- The number of statements of a body that have their turn before the time is up. -/
def visited [Clock] (options : Options) (body : Body) : Nat :=
  (List.range body.statements.length).findIdx fun k => options.timeLimit ≤ Clock.seconds body k

def calls [Clock] (options : Options) (bodies : List Body) : List Method :=
  (options.asked bodies).flatMap fun body =>
    Statement.calls (body.statements.take (options.visited body))

theorem asked_append (options : Options) (bodies bodies' : List Body) :
    options.asked (bodies ++ bodies') = options.asked bodies ++ options.asked bodies' :=
  List.filter_append bodies bodies'

end Options

namespace Analyzer

section

variable [Enumeration] [Clock]

theorem visitFrom_eq (a : Analyzer) (body : Body) (statements : List Statement) (index : Nat)
    (v : Visit) :
    let n := (List.range' index statements.length).findIdx fun k =>
      a.options.timeLimit ≤ Clock.seconds body k
    a.visitFrom body index v statements =
      (v.run a.chain body.method (statements.take n), decide (n < statements.length)) := by
  induction statements generalizing index v with
  | nil => rfl
  | cons s rest ih =>
    have hrest := ih (index + 1) (v.step a.chain body.method s)
    by_cases hlate : a.options.timeLimit ≤ Clock.seconds body index
    · simp [visitFrom, List.range'_succ, List.findIdx_cons, hlate, Visit.run]
    · simp [visitFrom, List.range'_succ, List.findIdx_cons, hlate, Visit.run, hrest]

theorem visit_eq (a : Analyzer) (body : Body) :
    a.visit body =
      ((Visit.start a.options.maxValues a.names).run a.chain body.method
        (body.statements.take (a.options.visited body)),
      decide (a.options.visited body < body.statements.length)) := by
  rw [visit, visitFrom_eq, Options.visited, List.range_eq_range']

theorem isIncomplete_analyzeBody (a : Analyzer) (body : Body) :
    (a.analyzeBody body).1.isIncomplete = true ↔
      ∃ k < body.statements.length, a.options.timeLimit ≤ Clock.seconds body k := by
  have hlt : (List.range body.statements.length).findIdx
      (fun k => decide (a.options.timeLimit ≤ Clock.seconds body k)) <
        (List.range body.statements.length).length ↔ _ := List.findIdx_lt_length
  rw [List.length_range] at hlt
  rw [analyzeBody, visit_eq, decide_eq_true_iff, Options.visited, hlt]
  simp

end

-- If each statement takes 15 seconds, the limit of 40 stops a body after the third.
example :
    let _ : Clock := ⟨fun _ k => 15 * k⟩
    let body : Body := ⟨⟨"C", "m", [], "void"⟩, List.replicate 5 (.ofInstruction (.giveBack none))⟩
    ({} : Options).visited body = 3 ∧
      ((new {}).analyzeBody body).1.isIncomplete = true := by
  decide +kernel

theorem isSelected_iff (a : Analyzer) (m : Method) :
    a.isSelected m = true ↔ a.options.Asks m := by
  unfold isSelected Options.Asks
  cases a.options.singleMethod with
  | none => simp
  | some selection => simp [selects, or_assoc]

theorem summary_eq [Enumeration] [Clock] (a : Analyzer) (names : KnownName.Cache) (body : Body) :
    (({ a with names := names } : Analyzer).analyzeBody body).1 = (a.analyzeBody body).1 := by
  have hstart : Visit.SameFindings (.start a.options.maxValues names)
      (.start a.options.maxValues a.names) := ⟨rfl, rfl, rfl⟩
  have hfound := hstart.run a.chain body.method
    (body.statements.take (a.options.visited body))
  simp only [analyzeBody, visit_eq, Summary.mk.injEq]
  exact ⟨trivial, congrArg (·.map ReportedValue.ofValue) hfound.returns, hfound.flows, trivial⟩

theorem names_analyzeBody [Enumeration] [Clock] (a : Analyzer) (body : Body) :
    (a.analyzeBody body).2 = { a with
      names := (a.names.lookups
        (Statement.calls (body.statements.take (a.options.visited body)))).2 } := by
  rw [analyzeBody, visit_eq]
  simp only [Visit.names_run, Visit.start]

/-- An analysis of some bodies gives the summaries of those asked for, each as it is on its own, and
remembers the names that it came across. -/
theorem analyzeBodies_eq [Enumeration] [Clock] (a : Analyzer) (bodies : List Body) :
    a.analyzeBodies bodies =
      ((a.options.asked bodies).map (fun body => (a.analyzeBody body).1),
        { a with names := (a.names.lookups (a.options.calls bodies)).2 }) := by
  induction bodies generalizing a with
  | nil => rfl
  | cons body rest ih =>
    by_cases hasked : a.options.Asks body.method
    · have hselected := (a.isSelected_iff body.method).2 hasked
      have hrest := ih (a.analyzeBody body).2
      simp only [names_analyzeBody, summary_eq] at hrest
      simp [analyzeBodies, hselected, names_analyzeBody, hrest, Options.asked, Options.calls,
        hasked, KnownName.Cache.lookups_append]
    · have hselected : a.isSelected body.method = false :=
        Bool.eq_false_iff.2 fun h => hasked ((a.isSelected_iff body.method).1 h)
      simp [analyzeBodies, hselected, ih, Options.asked, Options.calls, hasked]

theorem analyzeBodies_append [Enumeration] [Clock] (a : Analyzer) (bodies bodies' : List Body) :
    a.analyzeBodies (bodies ++ bodies') =
      let first := a.analyzeBodies bodies
      let second := first.2.analyzeBodies bodies'
      (first.1 ++ second.1, second.2) := by
  simp [analyzeBodies_eq, Options.asked_append, Options.calls, summary_eq,
    KnownName.Cache.lookups_append]

theorem analyzeAll_eq [Enumeration] [Clock] (a : Analyzer) (programs : List Program) :
    a.analyzeAll programs = a.analyze ⟨programs.flatMap Program.methods⟩ := by
  induction programs generalizing a with
  | nil => rfl
  | cons p rest ih => simp [analyzeAll, analyze, ih, analyzeBodies_append, Report.append]

/-- Every body is analyzed as if there were no other. A report on several programs lists, in their
order, what a new analysis gives each body that was asked for. It is the report on all bodies in one
program; bodies that are added add their own summaries and change no other; and the names that were
looked up on the way are those of the called methods. -/
theorem bodies_analyzed_alone [Enumeration] [Clock] (options : Options) (programs : List Program) :
    let bodies := programs.flatMap Program.methods
    let analysis := (new options).analyzeAll programs
    analysis.1.summaries =
      (bodies.filter fun body => options.Asks body.method).map
        (fun body => ((new options).analyzeBody body).1) ∧
    analysis.1 = ((new options).analyze ⟨bodies⟩).1 ∧
    (∀ first added last : List Body,
      ((new options).analyze ⟨first ++ added ++ last⟩).1.summaries =
        ((new options).analyze ⟨first⟩).1.summaries ++
          ((new options).analyze ⟨added⟩).1.summaries ++
          ((new options).analyze ⟨last⟩).1.summaries) ∧
    analysis.2.names.Reflects (options.calls bodies) := by
  intro bodies analysis
  have hone : analysis = (new options).analyze ⟨bodies⟩ := (new options).analyzeAll_eq programs
  have hbodies := (new options).analyzeBodies_eq bodies
  refine ⟨?_, ?_, ?_, ?_⟩
  · rw [hone, analyze, hbodies]
    rfl
  · rw [hone]
  · intro first added last
    simp [analyze, analyzeBodies_eq, Options.asked_append]
  · rw [hone, analyze, hbodies]
    exact KnownName.Cache.reflects_lookups (options.calls bodies)

end Analyzer

end Provenance
