import Provenance.CommandLine
import Provenance.Proofs.Attempts
import Provenance.Proofs.Independence
import Provenance.Proofs.RoundTrip

set_option autoImplicit false

namespace Provenance

namespace Report

@[simp] theorem append_empty (r : Report) : r.append .empty = r := by simp [append, empty]

@[simp] theorem empty_append (r : Report) : Report.empty.append r = r := rfl

theorem append_assoc (r r' r'' : Report) :
    (r.append r').append r'' = r.append (r'.append r'') := by simp [append]

end Report

namespace Outcome

def Fails (o : Outcome) : Prop := o.exitCode ≠ 0 ∧ o.stdout = ""

end Outcome

namespace CommandLine

def program? (files : String → Option String) (path : String) : Option Program :=
  (files path).bind Program.load?

/-- The loop over the files fails at the first one that cannot be loaded, or adds to the report what
an analysis of all programs gives. -/
theorem analyzeFiles_eq [Enumeration] [Clock] (files : String → Option String) (a : Analyzer)
    (report : Report) (paths : List String) :
    analyzeFiles files a report paths =
      match paths.find? fun path => (program? files path).isNone with
      | some path => .error path
      | none => .ok (report.append (a.analyzeAll (paths.filterMap (program? files))).1) := by
  induction paths generalizing a report with
  | nil => simp [analyzeFiles, Analyzer.analyzeAll]
  | cons path rest ih =>
    have hloaded : (files path).bind Program.load? = program? files path := rfl
    rw [analyzeFiles, hloaded]
    cases hpath : program? files path with
    | none => simp [hpath]
    | some p =>
      rw [List.find?_cons_of_neg (by simp [hpath]), List.filterMap_cons_some hpath]
      simp only [ih, Analyzer.analyzeAll, Report.append_assoc]

theorem run_of_loaded [Enumeration] [Clock] {files : String → Option String}
    {flags : Option String} {arguments : List String} {options : Options} {path : String}
    {rest : List String} (h : configure flags arguments = .ok (options, path :: rest))
    (hall : (path :: rest).find? (fun path => (program? files path).isNone) = none) :
    run files flags arguments = print options.output
      ((Analyzer.new options).analyzeAll ((path :: rest).filterMap (program? files))).1 := by
  simp only [run, h, analyzeFiles_eq, hall, Report.empty_append]

end CommandLine

end Provenance
