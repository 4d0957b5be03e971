import Provenance.Proofs.Independence
import Provenance.Proofs.WellFormed

set_option autoImplicit false

namespace Provenance

theorem TagSet.unions_append_singleton (sets : List TagSet) (s : TagSet) :
    unions (sets ++ [s]) = (unions sets).union s := by
  simp [unions]

namespace SymbolicValue

/-- The values with a given text as one value: the first of them, with the tags of all of them in
their order. -/
def gathered (values : List SymbolicValue) (text : String) : Option SymbolicValue :=
  (values.find? fun v => v.text = text).map fun first =>
    { first with
      tags := TagSet.unions ((values.filter fun v => v.text = text).map SymbolicValue.tags) }

section

variable (values : List SymbolicValue) (v : SymbolicValue)

theorem gathered_append_of_ne {t : String} (h : v.text ≠ t) :
    gathered (values ++ [v]) t = gathered values t := by
  simp [gathered, h]

theorem gathered_append_of_some {r : SymbolicValue} (h : gathered values v.text = some r) :
    gathered (values ++ [v]) v.text = some (r.addTags v.tags) := by
  obtain ⟨first, hfirst, rfl⟩ := Option.map_eq_some_iff.1 h
  simp [gathered, hfirst, TagSet.unions_append_singleton, addTags]

theorem gathered_append_of_new (h : v.text ∉ values.map text) :
    gathered (values ++ [v]) v.text = some v := by
  have hother : ∀ u ∈ values, u.text ≠ v.text := fun u hu e => h (List.mem_map.2 ⟨u, hu, e⟩)
  have hfind : values.find? (fun u => decide (u.text = v.text)) = none := by
    simpa using hother
  have hfilter : values.filter (fun u => decide (u.text = v.text)) = [] := by
    simpa using hother
  cases v
  simp [gathered, hfind, hfilter, TagSet.unions]

end

/-- What a list holds after a value was added: what it held under other texts, and under the text of
the value either the old value with more tags or the new one. -/
theorem mem_addResult_cases {results : List SymbolicValue} {v r : SymbolicValue}
    (hn : (results.map text).Nodup) (h : r ∈ addResult results v) :
    (r ∈ results ∧ v.text ≠ r.text) ∨
      (∃ s ∈ results, s.text = v.text ∧ r = s.addTags v.tags) ∨
      (r = v ∧ v.text ∉ results.map text) := by
  induction results with
  | nil => exact Or.inr (Or.inr ⟨by simpa [addResult] using h, by simp⟩)
  | cons first rest ih =>
    obtain ⟨hfirst, hrest⟩ : first.text ∉ rest.map text ∧ (rest.map text).Nodup := by
      simpa using hn
    by_cases htext : first.text = v.text
    · rw [addResult_cons, if_pos htext] at h
      rcases List.mem_cons.1 h with rfl | h
      · exact Or.inr (Or.inl ⟨first, by simp, htext, rfl⟩)
      · refine Or.inl ⟨by simp [h], fun e => hfirst ?_⟩
        rw [htext, e]
        exact List.mem_map.2 ⟨r, h, rfl⟩
    · rw [addResult_cons, if_neg htext] at h
      have hv : ¬ v.text = first.text := fun e => htext e.symm
      rcases List.mem_cons.1 h with rfl | h
      · exact Or.inl ⟨by simp, hv⟩
      · rcases ih hrest h with ⟨hr, hne⟩ | ⟨s, hs, hst, hr⟩ | ⟨hr, hnew⟩
        · exact Or.inl ⟨by simp [hr], hne⟩
        · exact Or.inr (Or.inl ⟨s, by simp [hs], hst, hr⟩)
        · refine Or.inr (Or.inr ⟨hr, ?_⟩)
          rw [List.map_cons, List.mem_cons]
          exact not_or.2 ⟨hv, hnew⟩

theorem gathered_of_mem_distinct (values : List SymbolicValue) :
    ∀ r ∈ distinct values, gathered values r.text = some r := by
  induction values using List.reverseRecOn with
  | nil => simp [distinct]
  | append_singleton values v ih =>
    intro r hr
    rw [distinct_append_singleton] at hr
    rcases mem_addResult_cases (nodup_texts_distinct values) hr with
      ⟨hold, hne⟩ | ⟨s, hs, hst, rfl⟩ | ⟨rfl, hnew⟩
    · rw [gathered_append_of_ne values v hne, ih r hold]
    · have hsame := ih s hs
      rw [hst] at hsame
      rw [text_addTags, hst, gathered_append_of_some values v hsame]
    · rw [mem_texts_distinct] at hnew
      exact gathered_append_of_new values r hnew

theorem mem_tags_of_mem_distinct {values : List SymbolicValue} {r : SymbolicValue}
    (h : r ∈ distinct values) {t : Tag} :
    t ∈ r.tags ↔ ∃ v ∈ values, v.text = r.text ∧ t ∈ v.tags := by
  obtain ⟨first, _, hfirst⟩ := Option.map_eq_some_iff.1 (gathered_of_mem_distinct values r h)
  have htags := congrArg tags hfirst
  simp [← htags, and_assoc]

theorem addResult_of_subset {results : List SymbolicValue} {r v : SymbolicValue}
    (hn : (results.map text).Nodup) (hr : r ∈ results) (ht : r.text = v.text)
    (hs : v.tags.subset r.tags = true) : addResult results v = results := by
  induction results with
  | nil => simp at hr
  | cons first rest ih =>
    obtain ⟨hfirst, hrest⟩ : first.text ∉ rest.map text ∧ (rest.map text).Nodup := by
      simpa using hn
    by_cases htext : first.text = v.text
    · have hsame : first = r := by
        rcases List.mem_cons.1 hr with h | h
        · exact h.symm
        · exact absurd (List.mem_map.2 ⟨r, h, ht.trans htext.symm⟩) hfirst
      rw [addResult_cons, if_pos htext, hsame, addTags_of_subset hs]
    · have hlater : r ∈ rest := by
        rcases List.mem_cons.1 hr with h | h
        · exact absurd (h ▸ ht) htext
        · exact h
      rw [addResult_cons, if_neg htext, ih hrest hlater]

end SymbolicValue

def Instruction.givenBack (env : Environment) : Instruction → List SymbolicValue
  | .giveBack (some o) => (env.resolveOperand? o).getD [.returned o]
  | _ => []

theorem Effect.returns_ofInstruction [Enumeration] (chain : Chain)
    (knownName : Method → KnownName) (env : Environment) (caller : Method) (i : Instruction) :
    (ofInstruction chain knownName env caller i).returns = i.givenBack env := by
  cases i with
  | invoke result method receiver arguments =>
    simp only [ofInstruction, ofCall]
    split <;> rfl
  | giveBack value => cases value <;> rfl
  | _ => rfl

namespace Visit

variable [Enumeration]

def givenBack (chain : Chain) (names : KnownName.Cache) (limit : Nat) (body : Body) (n : Nat) :
    List SymbolicValue :=
  (List.range n).flatMap fun k =>
    body.statements[k]?.toList.flatMap fun s =>
      s.instruction.givenBack (upTo chain names limit body k).environment

theorem mem_givenBack {chain : Chain} {names : KnownName.Cache} {limit : Nat} {body : Body}
    {n : Nat} {u : SymbolicValue} :
    u ∈ givenBack chain names limit body n ↔
      ∃ k < n, ∃ guard o, body.statements[k]? = some ⟨guard, .giveBack (some o)⟩ ∧
        u ∈ ((upTo chain names limit body k).environment.resolveOperand? o).getD [.returned o] := by
  simp only [givenBack, List.mem_flatMap, List.mem_range, Option.mem_toList]
  constructor
  · rintro ⟨k, hk, ⟨guard, i⟩, hs, hu⟩
    cases i with
    | giveBack value =>
      cases value with
      | none => simp [Instruction.givenBack] at hu
      | some o => exact ⟨k, hk, guard, o, hs, hu⟩
    | _ => simp [Instruction.givenBack] at hu
  · rintro ⟨k, hk, guard, o, hs, hu⟩
    exact ⟨k, hk, _, hs, hu⟩

theorem returns_upTo (chain : Chain) (names : KnownName.Cache) (limit : Nat) (body : Body)
    (n : Nat) :
    (upTo chain names limit body n).returns =
      SymbolicValue.distinct (givenBack chain names limit body n) := by
  induction n with
  | zero => rfl
  | succ n ih =>
    have hnext : givenBack chain names limit body (n + 1) = givenBack chain names limit body n ++
        body.statements[n]?.toList.flatMap fun s =>
          s.instruction.givenBack (upTo chain names limit body n).environment := by
      simp [givenBack, List.range_succ]
    cases hs : body.statements[n]? with
    | none => simp [upTo_succ_of_none chain names limit hs, hnext, hs, ih]
    | some s =>
      rw [upTo_succ chain names limit hs, hnext, hs]
      simp [step, perform, Effect.returns_ofInstruction, ih, SymbolicValue.distinct]

end Visit

namespace Analyzer

variable [Enumeration] [Clock]

/-- A return that is visited gives the value back: its operand resolves to it at that moment, or has
no values and is stood for by it. -/
def GivesBack (a : Analyzer) (body : Body) (u : SymbolicValue) : Prop :=
  ∃ k < a.options.visited body, ∃ guard o, body.statements[k]? = some ⟨guard, .giveBack (some o)⟩ ∧
    u ∈ ((Visit.upTo a.chain a.names a.options.maxValues body k).environment.resolveOperand? o).getD
      [.returned o]

theorem returnValues_eq (a : Analyzer) (body : Body) :
    (a.analyzeBody body).1.returnValues =
      (SymbolicValue.distinct
        (Visit.givenBack a.chain a.names a.options.maxValues body
          (a.options.visited body))).map ReportedValue.ofValue := by
  rw [← Visit.returns_upTo, analyzeBody, visit_eq]
  rfl

end Analyzer

namespace SymbolicValue

/-- Merging loses nothing. The texts of a list are kept in the order in which they first occur; each
is kept with the first value that has it and with the tags of all that have it; and what is merged
stays as it is, also if a value comes again without new tags. So a summary lists every text that
some visited return gave back, once, with all tags that came with it. -/
theorem merging_loses_nothing [Enumeration] [Clock] :
    (∀ values : List SymbolicValue,
      ((distinct values).map text).Nodup ∧
      (distinct values).map text = (values.map text).eraseDups ∧
      (∀ t, t ∈ (distinct values).map text ↔ t ∈ values.map text) ∧
      (∀ r ∈ distinct values, gathered values r.text = some r) ∧
      distinct (distinct values) = distinct values ∧
      ∀ v, ∀ r ∈ distinct values, r.text = v.text → v.tags.subset r.tags = true →
        distinct (values ++ [v]) = distinct values) ∧
    ∀ (a : Analyzer) (body : Body),
      let reported := (a.analyzeBody body).1.returnValues
      (reported.map ReportedValue.value).Nodup ∧
      (∀ t, t ∈ reported.map ReportedValue.value ↔ ∃ u, a.GivesBack body u ∧ u.text = t) ∧
      ∀ r ∈ reported, r.tags.Nodup ∧
        ∀ t, t ∈ r.tags ↔ ∃ u, a.GivesBack body u ∧ u.text = r.value ∧ t ∈ u.tags := by
  constructor
  · intro values
    refine ⟨nodup_texts_distinct values, texts_distinct values, fun t => mem_texts_distinct,
      gathered_of_mem_distinct values, distinct_of_nodup (nodup_texts_distinct values), ?_⟩
    intro v r hr ht hs
    rw [distinct_append_singleton, addResult_of_subset (nodup_texts_distinct values) hr ht hs]
  · intro a body reported
    let given := Visit.givenBack a.chain a.names a.options.maxValues body (a.options.visited body)
    have hgiven : ∀ u, u ∈ given ↔ a.GivesBack body u := fun u => Visit.mem_givenBack
    have hreported : reported = (distinct given).map ReportedValue.ofValue := a.returnValues_eq body
    have htexts : reported.map ReportedValue.value = (distinct given).map text := by
      rw [hreported, List.map_map]
      rfl
    refine ⟨?_, ?_, ?_⟩
    · rw [htexts]
      exact nodup_texts_distinct given
    · intro t
      rw [htexts, mem_texts_distinct]
      simp [hgiven]
    · intro r hr
      rw [hreported] at hr
      obtain ⟨v, hv, rfl⟩ := List.mem_map.1 hr
      refine ⟨v.tags.nodup, fun t => ?_⟩
      have hmem := mem_tags_of_mem_distinct hv (t := t)
      rw [← TagSet.mem_toList] at hmem
      simpa [hgiven, ReportedValue.ofValue] using hmem

end SymbolicValue

end Provenance
