import Mathlib.Data.List.Induction
import Mathlib.Data.List.Nodup
import Mathlib.Data.List.Perm.Basic
import Provenance.TagSet

set_option autoImplicit false

namespace Provenance.TagSet

theorem insert_of_mem {s : TagSet} {t : Tag} (h : t ∈ s) : s.insert t = s := dif_pos h

theorem toList_insert_of_not_mem {s : TagSet} {t : Tag} (h : t ∉ s) :
    (s.insert t).toList = s.toList ++ [t] := by
  rw [toList_insert, if_neg (mt mem_toList.1 h)]

theorem toList_foldl_insert (ts : List Tag) (s : TagSet) (h : (s.toList ++ ts).Nodup) :
    (ts.foldl insert s).toList = s.toList ++ ts := by
  induction ts generalizing s with
  | nil => simp
  | cons t ts ih =>
    have hnew : t ∉ s := fun ht => (List.nodup_append.1 h).2.2 t ht t (by simp) rfl
    have hs := toList_insert_of_not_mem hnew
    have hn : ((s.insert t).toList ++ ts).Nodup := by
      simpa [hs] using h
    rw [List.foldl_cons, ih _ hn, hs]
    simp

@[simp] theorem empty_union (s : TagSet) : empty.union s = s := by
  apply TagSet.ext
  have h := toList_foldl_insert s.toList empty (by simpa using s.nodup)
  simpa [union] using h

theorem union_insert (a s : TagSet) (t : Tag) : a.union (s.insert t) = (a.union s).insert t := by
  by_cases ht : t ∈ s
  · have hunion : t ∈ a.union s := mem_union.2 (Or.inr ht)
    rw [insert_of_mem ht, insert_of_mem hunion]
  · rw [union, toList_insert_of_not_mem ht, List.foldl_append]
    rfl

theorem union_foldl_insert (ts : List Tag) (a s : TagSet) :
    a.union (ts.foldl insert s) = ts.foldl insert (a.union s) := by
  induction ts generalizing s with
  | nil => rfl
  | cons t ts ih => rw [List.foldl_cons, List.foldl_cons, ih, union_insert]

theorem union_assoc (a b c : TagSet) : (a.union b).union c = a.union (b.union c) :=
  (union_foldl_insert c.toList a b).symm

theorem union_of_subset {a b : TagSet} (h : b.subset a = true) : a.union b = a := by
  have hfold : ∀ ts : List Tag, (∀ t ∈ ts, t ∈ a) → ts.foldl insert a = a := by
    intro ts hts
    induction ts with
    | nil => rfl
    | cons t ts ih =>
      rw [List.foldl_cons, insert_of_mem (hts t (by simp)), ih fun u hu => hts u (by simp [hu])]
  exact hfold b.toList (subset_iff.1 h)

theorem subset_iff_union_eq {a b : TagSet} : b.subset a = true ↔ a.union b = a := by
  constructor
  · exact union_of_subset
  · intro h
    apply subset_iff.2
    intro t ht
    rw [← h]
    exact mem_union.2 (Or.inr ht)

theorem prefix_foldl_insert (ts : List Tag) (s : TagSet) :
    s.toList <+: (ts.foldl insert s).toList := by
  induction ts generalizing s with
  | nil => exact List.prefix_rfl
  | cons t ts ih =>
    have hstep : s.toList <+: (s.insert t).toList := by
      rw [toList_insert]
      split
      · exact List.prefix_rfl
      · exact List.prefix_append _ _
    exact hstep.trans (ih _)

theorem perm_union_comm (a b : TagSet) : (a.union b).toList.Perm (b.union a).toList := by
  apply (List.perm_ext_iff_of_nodup (a.union b).nodup (b.union a).nodup).2
  intro t
  rw [mem_toList, mem_toList, mem_union, mem_union, or_comm]

theorem contains_eq (s : TagSet) (t : Tag) : s.contains t = decide (t ∈ s) := by
  rw [contains, List.contains_eq_mem]
  rfl

theorem toList_insertAll (ts : List Tag) : (ts.foldl insert empty).toList = ts.eraseDups := by
  induction ts using List.reverseRecOn with
  | nil => rfl
  | append_singleton ts t ih =>
    have hmem : t ∈ ts.foldl insert empty ↔ t ∈ ts := by simp [mem_foldl_insert]
    rw [List.foldl_append, List.foldl_cons, List.foldl_nil, List.eraseDups_append]
    by_cases ht : t ∈ ts
    · rw [insert_of_mem (hmem.2 ht), ih]
      simp [List.removeAll, ht]
    · rw [toList_insert_of_not_mem (mt hmem.1 ht), ih]
      simp [List.removeAll, ht, List.eraseDups_cons]

inductive Recipe where
  | empty
  | single (t : Tag)
  | add (r : Recipe) (t : Tag)
  | join (r r' : Recipe)

namespace Recipe

def made : Recipe → TagSet
  | empty => TagSet.empty
  | single t => TagSet.singleton t
  | add r t => r.made.insert t
  | join r r' => r.made.union r'.made

def mentions : Recipe → List Tag
  | empty => []
  | single t => [t]
  | add r t => r.mentions ++ [t]
  | join r r' => r.mentions ++ r'.mentions

/-- However the parts are nested, their tags could be inserted one after another. -/
theorem made_eq (r : Recipe) : r.made = r.mentions.foldl insert TagSet.empty := by
  induction r with
  | empty => rfl
  | single t => rfl
  | add r t ih => rw [made, mentions, List.foldl_append, ih, List.foldl_cons, List.foldl_nil]
  | join r r' ih ih' =>
    rw [made, mentions, List.foldl_append, ih', union_foldl_insert, ← ih]
    rfl

theorem toList_made (r : Recipe) : r.made.toList = r.mentions.eraseDups := by
  rw [made_eq, toList_insertAll]

end Recipe

/-- A set that is put together in any way lists the tags that were mentioned, each once and in the
order of their first mentions, and the union is associative and idempotent on these lists, keeps
the first list in front, depends on the order of the two sets only for the order of the tags, and
leaves a set as it is exactly if nothing is added to it. -/
theorem ordered_union (r : Recipe) (a b c : TagSet) (t : Tag) :
    (r.made.toList = r.mentions.eraseDups ∧ r.made.toList.Nodup) ∧
    ((a.union b).union c = a.union (b.union c) ∧ a.union empty = a ∧ empty.union a = a ∧
      a.union a = a ∧ (a.union b).union a = a.union b) ∧
    a.toList <+: (a.union b).toList ∧
    (a.union b).contains t = (a.contains t || b.contains t) ∧
    (a.union b).toList.Perm (b.union a).toList ∧
    (b.subset a = true ↔ a.union b = a) := by
  have hself : a.subset a = true := subset_iff.2 fun _ hu => hu
  have hleft : a.subset (a.union b) = true := subset_iff.2 fun _ hu => mem_union.2 (Or.inl hu)
  refine ⟨⟨r.toList_made, r.made.nodup⟩, ⟨union_assoc a b c, rfl, empty_union a, ?_, ?_⟩,
    prefix_foldl_insert b.toList a, ?_, perm_union_comm a b, subset_iff_union_eq⟩
  · exact union_of_subset hself
  · exact union_of_subset hleft
  · simp only [contains_eq, mem_union, Bool.decide_or]

-- A tag that is mentioned again keeps its first place.
example : (Recipe.join (.add (.single "b") "a") (.join (.single "c") (.single "b"))).made.toList =
    ["b", "a", "c"] := by decide

end Provenance.TagSet
