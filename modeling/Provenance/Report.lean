import Provenance.Json.Wire

set_option autoImplicit false

namespace Provenance

structure Flow where
  method : String
  callee : String
  argument : String
  tags : List String
  deriving DecidableEq

def Flow.text (f : Flow) : String :=
  f.method ++ ": " ++ f.argument ++ " [" ++ "|".intercalate f.tags ++ "] flows into " ++ f.callee

structure ReportedValue where
  value : String
  tags : List String
  deriving DecidableEq

structure Summary where
  method : String
  returnValues : List ReportedValue
  flows : List Flow
  isIncomplete : Bool
  deriving DecidableEq

structure Report where
  summaries : List Summary
  deriving DecidableEq

namespace Report

def empty : Report := ⟨[]⟩

def flows (r : Report) : List Flow := r.summaries.flatMap Summary.flows

def summaryFor? (r : Report) (method : String) : Option Summary :=
  r.summaries.find? fun s => s.method == method

def append (r r' : Report) : Report := ⟨r.summaries ++ r'.summaries⟩

end Report

instance : Wire Flow where
  toJson f := .record [("method", toJson f.method), ("callee", toJson f.callee),
    ("argument", toJson f.argument), ("tags", toJson f.tags)]
  ofJson? j :=
    match j.slots? ["method", "callee", "argument", "tags"] with
    | some [method, callee, argument, tags] => do
      return ⟨← method.required, ← callee.required, ← argument.required, ← tags.required⟩
    | _ => none

instance : Wire ReportedValue where
  toJson v := .record (("value", toJson v.value) ::
    (if v.tags.isEmpty then [] else [("tags", toJson v.tags)]))
  ofJson? j :=
    match j.slots? ["value", "tags"] with
    | some [value, tags] => do return ⟨← value.required, ← tags.orElse []⟩
    | _ => none

instance : Wire Summary where
  toJson s := .record [("method", toJson s.method), ("return_values", toJson s.returnValues),
    ("tainted_flows", toJson s.flows), ("is_incomplete", toJson s.isIncomplete)]
  ofJson? j :=
    match j.slots? ["method", "return_values", "tainted_flows", "is_incomplete"] with
    | some [method, returnValues, flows, isIncomplete] => do
      return ⟨← method.required, ← returnValues.required, ← flows.required,
        ← isIncomplete.orElse false⟩
    | _ => none

instance : Wire Report where
  toJson r := .record [("summaries", toJson r.summaries)]
  ofJson? j :=
    match j.slots? ["summaries"] with
    | some [summaries] => do return ⟨← summaries.required⟩
    | _ => none

end Provenance
