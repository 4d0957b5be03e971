import Provenance.Proofs.WellFormed
import Provenance.Proofs.Writes

set_option autoImplicit false

namespace Provenance

namespace Constant

theorem occursIn_iff (pattern text : List Char) :
    occursIn pattern text = true ↔ pattern <:+: text := by
  induction text with
  | nil => simp [occursIn]
  | cons c rest ih =>
    rw [occursIn, Bool.or_eq_true, List.isPrefixOf_iff_prefix, ih, List.infix_cons_iff]

theorem isUnresolved_iff (c : Constant) :
    c.isUnresolved = true ↔ ∃ s, c = .str s ∧ unresolvedMarker.toList <:+: s.toList := by
  cases c with
  | str s => simp [isUnresolved, occursIn_iff]
  | _ => simp [isUnresolved]

theorem isUnresolved_concat {a b : Constant} (h : a.isUnresolved = true ∨ b.isUnresolved = true) :
    (a.concat b).isUnresolved = true := by
  refine (isUnresolved_iff _).2 ⟨_, rfl, ?_⟩
  rw [String.toList_append]
  rcases h with h | h
  · obtain ⟨s, rfl, hs⟩ := (isUnresolved_iff a).1 h
    exact hs.trans (List.prefix_append _ _).isInfix
  · obtain ⟨s, rfl, hs⟩ := (isUnresolved_iff b).1 h
    exact hs.trans (List.suffix_append _ _).isInfix

theorem substring?_of_isUnresolved {c : Constant} (h : c.isUnresolved = true) (start : Int)
    (stop : Option Int) : c.substring? start stop = none := by
  cases c with
  | str s => simp [substring?, h]
  | _ => rfl

end Constant

theorem Recognizer.cut?_of_isUnresolved {c : Constant} (h : c.isUnresolved = true)
    (positions : Option (List Int)) : cut? positions c = none := by
  unfold cut?
  split
  · exact Constant.substring?_of_isUnresolved h _ _
  · exact Constant.substring?_of_isUnresolved h _ _
  · rfl

namespace CallSite

open Recognizer

def fold? (call : CallSite) (c : Constant) : Option Constant :=
  match call.knownName, call.arguments with
  | .append, [argument] | .concat, [argument] => argument.literal?.map c.concat
  | .substring, arguments => cut? (positions? arguments) c
  | _, _ => none

/-- A list in which exactly those candidates became constants that were evaluated. -/
structure Evaluates (call : CallSite) (candidates values : List SymbolicValue) : Prop where
  sound : ∀ r ∈ values, ∀ d, r.constant? = some d →
    ∃ v ∈ candidates, ∃ c, v.constant? = some c ∧ call.fold? c = some d
  complete : ∀ v ∈ candidates, ∀ c d, v.constant? = some c → call.fold? c = some d →
    d.render ∈ values.map SymbolicValue.text

section

variable {call : CallSite} {candidates values : List SymbolicValue}

theorem Evaluates.propagate (h : call.Evaluates candidates values) (env : Environment)
    (o : Operand) : call.Evaluates candidates (propagate env o values) where
  sound := by
    intro r hr
    obtain ⟨u, hu, rfl⟩ := List.mem_map.1 hr
    exact h.sound u hu
  complete := by
    have htexts : (Recognizer.propagate env o values).map SymbolicValue.text =
        values.map SymbolicValue.text := by
      simp [Recognizer.propagate, Function.comp_def]
    rw [htexts]
    exact h.complete

theorem Evaluates.distinct (h : call.Evaluates candidates values) :
    call.Evaluates candidates (SymbolicValue.distinct values) where
  sound := SymbolicValue.forall_distinct (fun _ _ hv => hv) h.sound
  complete := by
    intro v hv c d hc hd
    exact SymbolicValue.mem_texts_distinct.2 (h.complete v hv c d hc hd)

variable [Enumeration]

theorem constant?_describe (s : Snapshot) : (call.describe s).constant? = none := rfl

theorem evaluates_foldOrDescribe (s : Snapshot) (base : Operand) :
    call.Evaluates candidates (candidates.map (foldOrDescribe call s base call.fold?)) where
  sound := by
    intro r hr d hd
    obtain ⟨v, hv, rfl⟩ := List.mem_map.1 hr
    cases hfold : v.constant?.bind call.fold? with
    | none =>
      rw [foldOrDescribe_of_none call s base hfold, constant?_describe] at hd
      contradiction
    | some e =>
      rw [foldOrDescribe_of_some call s base hfold] at hd
      obtain rfl : e = d := Option.some.inj hd
      obtain ⟨c, hc, he⟩ := Option.bind_eq_some_iff.1 hfold
      exact ⟨v, hv, c, hc, he⟩
  complete := by
    intro v hv c d hc hd
    have hfold : v.constant?.bind call.fold? = some d := by rw [hc, Option.bind_some, hd]
    refine List.mem_map.2 ⟨_, List.mem_map.2 ⟨v, hv, rfl⟩, ?_⟩
    rw [foldOrDescribe_of_some call s base hfold]
    rfl

theorem evaluates_describeIn (env : Environment) (h : ∀ c, call.fold? c = none) :
    call.Evaluates candidates [call.describeIn env] where
  sound := by
    intro r hr d hd
    rw [List.mem_singleton.1 hr, describeIn, constant?_describe] at hd
    contradiction
  complete := by simp [h]

end

theorem fold?_of_append {call : CallSite}
    (hk : call.knownName = .append ∨ call.knownName = .concat) (c d : Constant) :
    call.fold? c = some d ↔ ∃ l, call.arguments = [.literal l] ∧ d = c.concat l := by
  rcases ha : call.arguments with _ | ⟨a, _ | ⟨b, rest⟩⟩
  · rcases hk with hk | hk <;> simp [fold?, hk, ha]
  · have hfold : call.fold? c = a.literal?.map c.concat := by
      rcases hk with hk | hk <;> simp [fold?, hk, ha]
    rw [hfold]
    cases a <;> simp [Operand.literal?, eq_comm]
  · rcases hk with hk | hk <;> simp [fold?, hk, ha]

theorem evaluates_modelValues [Enumeration] {call : CallSite}
    (h : call.knownName ∈ [.append, .concat, .substring]) {base : Operand}
    (hr : call.receiver = some base) (env : Environment) :
    call.Evaluates (env.resolveOrUnknown base) (call.modelValues env) := by
  obtain hk | hk : (call.knownName = .append ∨ call.knownName = .concat) ∨
      call.knownName = .substring := by simpa [or_assoc] using h
  · by_cases hargs : ∃ a, call.arguments = [a]
    · obtain ⟨a, ha⟩ := hargs
      have hfold : call.fold? = fun c => a.literal?.map c.concat := by
        funext c
        rcases hk with hk | hk <;> simp [fold?, hk, ha]
      have hvalues : call.modelValues env = appended call env base a := by
        rcases hk with hk | hk <;> simp [modelValues, hk, hr, ha]
      rw [hvalues, appended, ← hfold]
      exact ((evaluates_foldOrDescribe _ base).propagate env base).propagate env a
    · have hvalues : call.modelValues env = [call.describeIn env] := by
        rcases hk with hk | hk <;> rcases ha : call.arguments with _ | ⟨a, _ | ⟨b, rest⟩⟩ <;>
          simp_all [modelValues]
      rw [hvalues]
      apply evaluates_describeIn
      intro c
      rw [Option.eq_none_iff_forall_ne_some]
      intro d hd
      obtain ⟨l, hl, _⟩ := (fold?_of_append hk c d).1 hd
      exact hargs ⟨_, hl⟩
  · have hfold : call.fold? = cut? (positions? call.arguments) := by
      funext c
      simp [fold?, hk]
    have hvalues : call.modelValues env = call.cuts env base := by simp [modelValues, hk, hr]
    rw [hvalues, cuts, ← hfold]
    exact evaluates_foldOrDescribe _ base

/-- Appending and cutting evaluate constants of the receiver, and no other constants come about. A
constant with the marker is not cut. But whatever the receiver and a literal argument hold, they are
put together; all that holds is that the marker is not lost by it, so that the result is not cut. -/
theorem marker_stops_cuts_only [Enumeration] (env : Environment) {method : Method} (base : Operand)
    (arguments : List Operand) (h : method.knownName ∈ [.append, .concat, .substring]) :
    let call := CallSite.named method (some base) arguments
    (∃ values, Chain.recognize standard call env = .ok (some values) ∧
      call.Evaluates (env.resolveOrUnknown base) values) ∧
    (method.knownName = .substring → ∀ c d, call.fold? c = some d → c.isUnresolved = false) ∧
    (method.knownName ≠ .substring → ∀ c d, call.fold? c = some d ↔
      ∃ l, arguments = [.literal l] ∧ d = c.concat l) ∧
    ∀ c l : Constant, c.isUnresolved = true ∨ l.isUnresolved = true →
      (c.concat l).isUnresolved = true ∧
        ∀ positions, cut? positions (c.concat l) = none := by
  intro call
  refine ⟨?_, ?_, ?_, ?_⟩
  · have hmodelled : call.verdict = .modelled := by
      apply CallSite.verdict_of_known
      · rintro hk
        simp [hk] at h
      · rintro hk
        simp [hk] at h
      · exact fun _ => rfl
    have hanswer := call.recognize_standard env
    rw [hmodelled] at hanswer
    exact ⟨_, hanswer, (evaluates_modelValues h rfl env).distinct⟩
  · intro hk c d hd
    by_contra hc
    have hnone := cut?_of_isUnresolved (by simpa using hc) (positions? arguments)
    simp [call, fold?, named, hk, hnone] at hd
  · intro hk
    have happend : method.knownName = .append ∨ method.knownName = .concat := by
      simpa [hk] using h
    exact fold?_of_append happend
  · intro c l hcl
    have hmarked := Constant.isUnresolved_concat hcl
    exact ⟨hmarked, cut?_of_isUnresolved hmarked⟩

def labelBody : Body where
  method := ⟨"com.example.Notes", "label", [], "java.lang.String"⟩
  statements :=
    [⟨none, .assign (.named "r1" "java.lang.String") (.literal (.str "aUNKNOWN_STRINGb"))⟩,
     ⟨none, .invoke (some (.named "r2" "java.lang.String"))
      ⟨"java.lang.String", "concat", ["java.lang.String"], "java.lang.String"⟩
      (some (.named "r1" "java.lang.String")) [.literal (.str "c")]⟩,
     ⟨none, .giveBack (some (.named "r2" "java.lang.String"))⟩]

theorem marked_text_extended :
    let visit := Visit.upTo standard .empty Environment.defaultLimit labelBody
    let call := CallSite.named
      ⟨"java.lang.String", "concat", ["java.lang.String"], "java.lang.String"⟩
      (some (.named "r1" "java.lang.String")) [.literal (.str "c")]
    (visit 1).environment.resolveOrUnknown (.named "r1" "java.lang.String") =
        [.constant (.str "aUNKNOWN_STRINGb")] ∧
      (Constant.str "aUNKNOWN_STRINGb").isUnresolved = true ∧
      call.fold? (.str "aUNKNOWN_STRINGb") = some (.str "aUNKNOWN_STRINGbc") ∧
      Chain.recognize standard call (visit 1).environment =
        .ok (some [.constant (.str "aUNKNOWN_STRINGbc")]) ∧
      (visit 3).returns.map SymbolicValue.text = ["aUNKNOWN_STRINGbc"] := by
  refine ⟨rfl, ?_, ?_, rfl, ?_⟩ <;> decide +kernel

theorem marker_stops_cuts_only_concat :
    let env := (Visit.upTo standard .empty Environment.defaultLimit labelBody 1).environment
    let method : Method :=
      ⟨"java.lang.String", "concat", ["java.lang.String"], "java.lang.String"⟩
    let call := CallSite.named method (some (.named "r1" "java.lang.String")) [.literal (.str "c")]
    method.knownName ∈ [.append, .concat, .substring] ∧
      (∃ values, Chain.recognize standard call env = .ok (some values) ∧
        "aUNKNOWN_STRINGbc" ∈ values.map SymbolicValue.text) ∧
      (Constant.str "aUNKNOWN_STRINGbc").isUnresolved = true ∧
      cut? (some [0, 1]) (.str "aUNKNOWN_STRINGbc") = none := by
  intro env method call
  have hname : method.knownName ∈ [.append, .concat, .substring] := by decide
  obtain ⟨⟨values, hanswer, hvalues⟩, _, hfold, hmarked⟩ := marker_stops_cuts_only env
    (.named "r1" "java.lang.String") [.literal (.str "c")] hname
  have hextended := (hfold (by decide) (.str "aUNKNOWN_STRINGb") _).2 ⟨_, rfl, rfl⟩
  have htext := hvalues.complete (.constant (.str "aUNKNOWN_STRINGb")) (List.mem_singleton_self _)
    _ _ rfl hextended
  obtain ⟨hstill, hcut⟩ := hmarked (.str "aUNKNOWN_STRINGb") (.str "c") (Or.inl (by decide +kernel))
  exact ⟨hname, ⟨values, hanswer, htext⟩, hstill, hcut _⟩

end CallSite

end Provenance
