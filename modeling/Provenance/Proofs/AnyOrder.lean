import Provenance.Proofs.AllOrNothing
import Provenance.Proofs.Order

set_option autoImplicit false

namespace Provenance

structure ReportedValue.Alike (r r' : ReportedValue) : Prop where
  value : r.value = r'.value
  tags : r.tags.Perm r'.tags

structure Summary.Alike (s s' : Summary) : Prop where
  method : s.method = s'.method
  returnValues : List.Forall₂ ReportedValue.Alike s.returnValues s'.returnValues
  flows : List.Forall₂ (Flow.Related List.Perm) s.flows s'.flows
  isIncomplete : s.isIncomplete = s'.isIncomplete

def Report.Alike (r r' : Report) : Prop := List.Forall₂ Summary.Alike r.summaries r'.summaries

namespace Analyzer

variable [Clock]

/-- The summary of a body whose statements enumerate snapshots in orders of their own. -/
def orderedSummary (orders : Nat → Enumeration) (options : Options) (body : Body) : Summary :=
  let v := Visit.ordered orders .empty options.maxValues body (options.visited body)
  { method := body.method.text
    returnValues := v.returns.map ReportedValue.ofValue
    flows := v.flows
    isIncomplete := decide (options.visited body < body.statements.length) }

theorem orderedSummary_const [order : Enumeration] (options : Options) (body : Body) :
    orderedSummary (fun _ => order) options body = ((new options).analyzeBody body).1 := by
  rw [orderedSummary, Visit.ordered_const, analyzeBody, visit_eq]
  rfl

theorem orderedSummary_alike (orders orders' : Nat → Enumeration) (options : Options)
    (body : Body) :
    (orderedSummary orders options body).Alike (orderedSummary orders' options body) := by
  have hvisits := Visit.alike_ordered orders orders' .empty .empty options.maxValues body
    (options.visited body)
  refine ⟨rfl, ?_, hvisits.flows, rfl⟩
  refine List.rel_map ?_ hvisits.returns
  intro v v' hv
  exact ⟨hv.text, (SymbolicValue.alike_iff.1 hv).2.2.1⟩

theorem summaries_eq_ordered [order : Enumeration] (options : Options) (programs : List Program) :
    ((new options).analyzeAll programs).1.summaries =
      (options.asked (programs.flatMap Program.methods)).map
        (orderedSummary (fun _ => order) options) := by
  rw [analyzeAll_eq, analyze, analyzeBodies_eq]
  exact List.map_congr_left fun body _ => (orderedSummary_const options body).symm

theorem forall₂_orderedSummary (orders orders' : Body → Nat → Enumeration) (options : Options)
    (bodies : List Body) :
    List.Forall₂ Summary.Alike (bodies.map fun body => orderedSummary (orders body) options body)
      (bodies.map fun body => orderedSummary (orders' body) options body) := by
  rw [List.forall₂_map_left_iff, List.forall₂_map_right_iff]
  exact List.forall₂_same.2 fun body _ => orderedSummary_alike _ _ options body

/-- A report lists, up to the order of tags, what each body that was asked for gives on its own,
whatever the orders in which the body is visited then. -/
theorem summaries_in_any_order [order : Enumeration] (options : Options) (programs : List Program)
    (orders : Body → Nat → Enumeration) :
    List.Forall₂ Summary.Alike ((new options).analyzeAll programs).1.summaries
      ((options.asked (programs.flatMap Program.methods)).map fun body =>
        orderedSummary (orders body) options body) := by
  rw [summaries_eq_ordered]
  exact forall₂_orderedSummary (fun _ _ => order) orders options _

theorem analyzeAll_alike (order order' : Enumeration) (options : Options)
    (programs : List Program) :
    (@analyzeAll order _ (@new order options) programs).1.Alike
      (@analyzeAll order' _ (@new order' options) programs).1 := by
  rw [Report.Alike, @summaries_eq_ordered _ order']
  exact @summaries_in_any_order _ order options programs fun _ _ => order'

end Analyzer

namespace CommandLine

theorem stderr_print_eq (format : OutputFormat) {report report' : Report}
    (h : report.Alike report') : (print format report).stderr = (print format report').stderr := by
  cases format with
  | json => rfl
  | text =>
    have hincomplete : List.Forall₂ Summary.Alike (report.summaries.filter Summary.isIncomplete)
        (report'.summaries.filter Summary.isIncomplete) :=
      List.rel_filter (fun s s' hs => by simp [hs.isIncomplete]) h
    have hlines := map_eq_of_forall₂ hincomplete fun s s' (hs : s.Alike s') =>
      congrArg (fun m => "analysis of " ++ m ++ " is incomplete") hs.method
    simp only [print, hlines]

/-- The order in which snapshots are enumerated shows only in the order of the tags of a report. Two
runs on the same input end alike: they print the same, or each of them prints a report, and the
reports are alike. -/
theorem run_in_any_order [Clock] (order order' : Enumeration) (files : String → Option String)
    (flags : Option String) (arguments : List String) :
    let outcome := @run order _ files flags arguments
    let outcome' := @run order' _ files flags arguments
    outcome = outcome' ∨
      outcome.exitCode = 0 ∧ outcome'.exitCode = 0 ∧ outcome.stderr = outcome'.stderr ∧
      ∃ format report report', report.Alike report' ∧ outcome = print format report ∧
        outcome' = print format report' := by
  intro outcome outcome'
  cases hconfigure : configure flags arguments with
  | error e => exact .inl (by simp [outcome, outcome', run, hconfigure])
  | ok configured =>
    obtain ⟨options, paths⟩ := configured
    cases paths with
    | nil => exact .inl (by simp [outcome, outcome', run, hconfigure])
    | cons path rest =>
      cases hbad : (path :: rest).find? fun path => (program? files path).isNone with
      | some bad => exact .inl (by simp [outcome, outcome', run, hconfigure, analyzeFiles_eq, hbad])
      | none =>
        have halike := Analyzer.analyzeAll_alike order order' options
          ((path :: rest).filterMap (program? files))
        have hprinted : outcome = _ := @run_of_loaded order _ files _ _ _ _ _ hconfigure hbad
        have hprinted' : outcome' = _ := @run_of_loaded order' _ files _ _ _ _ _ hconfigure hbad
        have hexit : ∀ report, (print options.output report).exitCode = 0 := by
          intro report
          cases options.output <;> rfl
        refine .inr ⟨?_, ?_, ?_, options.output, _, _, halike, hprinted, hprinted'⟩
        · rw [hprinted, hexit]
        · rw [hprinted', hexit]
        · rw [hprinted, hprinted', stderr_print_eq options.output halike]

end CommandLine

end Provenance
