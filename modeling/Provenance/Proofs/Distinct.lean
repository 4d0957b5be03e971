import Provenance.Proofs.OrderedUnion
import Provenance.SymbolicValue

set_option autoImplicit false

namespace Provenance.SymbolicValue

@[simp] theorem text_addTags (v : SymbolicValue) (ts : TagSet) : (v.addTags ts).text = v.text := rfl

@[simp] theorem tags_addTags (v : SymbolicValue) (ts : TagSet) :
    (v.addTags ts).tags = v.tags.union ts := rfl

@[simp] theorem constant?_addTags (v : SymbolicValue) (ts : TagSet) :
    (v.addTags ts).constant? = v.constant? := rfl

@[simp] theorem tags_addTag (v : SymbolicValue) (t : Tag) :
    (v.addTag t).tags = v.tags.insert t := rfl

@[simp] theorem constant?_addTag (v : SymbolicValue) (t : Tag) :
    (v.addTag t).constant? = v.constant? := rfl

theorem addTags_of_subset {v : SymbolicValue} {ts : TagSet} (h : ts.subset v.tags = true) :
    v.addTags ts = v := by
  cases v
  rw [addTags, TagSet.union_of_subset h]

/-- Tags that are there already may as well be added. -/
theorem addResult_cons (r : SymbolicValue) (rest : List SymbolicValue) (v : SymbolicValue) :
    addResult (r :: rest) v =
      if r.text = v.text then r.addTags v.tags :: rest else r :: addResult rest v := by
  by_cases hsubset : v.tags.subset r.tags = true
  · rw [addResult, if_pos hsubset, addTags_of_subset hsubset]
  · rw [addResult, if_neg hsubset]

theorem texts_addResult (results : List SymbolicValue) (v : SymbolicValue) :
    (addResult results v).map text =
      if v.text ∈ results.map text then results.map text else results.map text ++ [v.text] := by
  induction results with
  | nil => simp [addResult]
  | cons r rest ih =>
    by_cases h : r.text = v.text
    · simp [addResult_cons, h]
    · have hne : ¬ v.text = r.text := fun e => h e.symm
      simp only [addResult_cons, h, if_false, List.map_cons, ih, List.mem_cons, hne, false_or]
      split <;> simp

theorem nodup_texts_addResult {results : List SymbolicValue} (v : SymbolicValue)
    (h : (results.map text).Nodup) : ((addResult results v).map text).Nodup := by
  rw [texts_addResult]
  split
  · exact h
  · rename_i hnew
    rw [← List.concat_eq_append]
    exact h.concat hnew

theorem tagged_addResult {t : Tag} (results : List SymbolicValue) (v : SymbolicValue) :
    (∃ r ∈ addResult results v, t ∈ r.tags) ↔ (∃ r ∈ results, t ∈ r.tags) ∨ t ∈ v.tags := by
  induction results with
  | nil => simp [addResult]
  | cons r rest ih =>
    by_cases h : r.text = v.text
    · simp only [addResult_cons, h, if_true, List.mem_cons, exists_eq_or_imp, tags_addTags,
        TagSet.mem_union]
      exact or_right_comm
    · simp only [addResult_cons, h, if_false, List.mem_cons, exists_eq_or_imp, ih]
      exact or_assoc.symm

theorem forall_addResult {P : SymbolicValue → Prop} (hP : ∀ v ts, P v → P (v.addTags ts))
    {results : List SymbolicValue} {v : SymbolicValue} (hr : ∀ r ∈ results, P r) (hv : P v) :
    ∀ r ∈ addResult results v, P r := by
  induction results with
  | nil => simpa [addResult] using hv
  | cons r rest ih =>
    have hhead : P r := hr r (by simp)
    have htail : ∀ u ∈ rest, P u := fun u hu => hr u (by simp [hu])
    by_cases h : r.text = v.text
    · simpa [addResult_cons, h] using ⟨hP r v.tags hhead, htail⟩
    · simpa [addResult_cons, h] using ⟨hhead, ih htail⟩

theorem nodup_texts_foldl {results : List SymbolicValue} (values : List SymbolicValue)
    (h : (results.map text).Nodup) : ((values.foldl addResult results).map text).Nodup := by
  induction values generalizing results with
  | nil => exact h
  | cons v values ih => exact ih (nodup_texts_addResult v h)

theorem nodup_texts_distinct (values : List SymbolicValue) :
    ((distinct values).map text).Nodup :=
  nodup_texts_foldl values List.nodup_nil

theorem tagged_foldl {t : Tag} (values results : List SymbolicValue) :
    (∃ r ∈ values.foldl addResult results, t ∈ r.tags) ↔
      (∃ r ∈ results, t ∈ r.tags) ∨ ∃ v ∈ values, t ∈ v.tags := by
  induction values generalizing results with
  | nil => simp
  | cons v values ih =>
    rw [List.foldl_cons, ih, tagged_addResult, or_assoc]
    simp

theorem tagged_distinct {t : Tag} (values : List SymbolicValue) :
    (∃ v ∈ distinct values, t ∈ v.tags) ↔ ∃ v ∈ values, t ∈ v.tags := by
  simpa [distinct] using tagged_foldl (t := t) values []

theorem forall_distinct {P : SymbolicValue → Prop} (hP : ∀ v ts, P v → P (v.addTags ts))
    {values : List SymbolicValue} (h : ∀ v ∈ values, P v) : ∀ v ∈ distinct values, P v := by
  have hfold : ∀ results : List SymbolicValue, (∀ r ∈ results, P r) →
      ∀ r ∈ values.foldl addResult results, P r := by
    induction values with
    | nil => exact fun results hr => hr
    | cons v values ih =>
      intro results hr
      have htail : ∀ u ∈ values, P u := fun u hu => h u (by simp [hu])
      exact ih htail _ (forall_addResult hP hr (h v (by simp)))
  exact hfold [] (by simp)

theorem addResult_ne_nil (results : List SymbolicValue) (v : SymbolicValue) :
    addResult results v ≠ [] := by
  cases results with
  | nil => simp [addResult]
  | cons r rest =>
    rw [addResult_cons]
    split <;> simp

theorem distinct_ne_nil {values : List SymbolicValue} (h : values ≠ []) : distinct values ≠ [] := by
  have hfold : ∀ (vs results : List SymbolicValue), results ≠ [] →
      vs.foldl addResult results ≠ [] := by
    intro vs
    induction vs with
    | nil => exact fun results hr => hr
    | cons v vs ih => exact fun results _ => ih _ (addResult_ne_nil results v)
  cases values with
  | nil => contradiction
  | cons v rest => exact hfold rest _ (addResult_ne_nil [] v)

theorem distinct_append_singleton (values : List SymbolicValue) (v : SymbolicValue) :
    distinct (values ++ [v]) = addResult (distinct values) v := by
  simp [distinct]

theorem texts_distinct (values : List SymbolicValue) :
    (distinct values).map text = (values.map text).eraseDups := by
  induction values using List.reverseRecOn with
  | nil => rfl
  | append_singleton values v ih =>
    rw [distinct_append_singleton, texts_addResult, ih, List.map_append, List.map_singleton,
      List.eraseDups_append]
    by_cases h : v.text ∈ values.map text
    · simp [-List.mem_map, List.mem_eraseDups, List.removeAll, h]
    · simp [-List.mem_map, List.mem_eraseDups, List.removeAll, List.eraseDups_cons, h]

theorem mem_texts_distinct {values : List SymbolicValue} {t : String} :
    t ∈ (distinct values).map text ↔ t ∈ values.map text := by
  rw [texts_distinct, List.mem_eraseDups]

theorem addResult_of_new {results : List SymbolicValue} {v : SymbolicValue}
    (h : v.text ∉ results.map text) : addResult results v = results ++ [v] := by
  induction results with
  | nil => rfl
  | cons r rest ih =>
    obtain ⟨hhead, htail⟩ : v.text ≠ r.text ∧ v.text ∉ rest.map text := by simpa using h
    rw [addResult_cons, if_neg (Ne.symm hhead), ih htail, List.cons_append]

theorem foldl_addResult_of_nodup (values : List SymbolicValue) {results : List SymbolicValue}
    (h : ((results ++ values).map text).Nodup) :
    values.foldl addResult results = results ++ values := by
  induction values generalizing results with
  | nil => simp
  | cons v rest ih =>
    have hnew : v.text ∉ results.map text := by
      rw [List.map_append, List.nodup_append] at h
      intro hmem
      exact h.2.2 _ hmem _ (by simp) rfl
    have hrest : (((results ++ [v]) ++ rest).map text).Nodup := by simpa using h
    rw [List.foldl_cons, addResult_of_new hnew, ih hrest, List.append_assoc]
    rfl

theorem distinct_of_nodup {values : List SymbolicValue} (h : (values.map text).Nodup) :
    distinct values = values :=
  foldl_addResult_of_nodup values (by simpa using h)

end Provenance.SymbolicValue
