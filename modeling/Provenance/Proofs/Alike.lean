import Provenance.Proofs.Related
import Provenance.Proofs.ValueTags

/-!
Values that differ in the order of their tags only: of their own tags, of the tags of the values in
their snapshots, and so on down. Such values have the same text and the same size, so nothing that
is decided by text, size, length or the presence of a tag can tell them apart.
-/

set_option autoImplicit false

namespace Provenance

def TagSet.Alike (a b : TagSet) : Prop := a.toList.Perm b.toList

theorem TagSet.alike_iff {a b : TagSet} : a.Alike b ↔ ∀ t, t ∈ a ↔ t ∈ b :=
  List.perm_ext_iff_of_nodup a.nodup b.nodup

theorem TagSet.Alike.insert {a b : TagSet} (h : a.Alike b) (t : Tag) :
    (a.insert t).Alike (b.insert t) := by
  rw [alike_iff] at h ⊢
  intro u
  rw [mem_insert, mem_insert, h]

theorem TagSet.Alike.union {a b a' b' : TagSet} (h : a.Alike b) (h' : a'.Alike b') :
    (a.union a').Alike (b.union b') := by
  rw [alike_iff] at h h' ⊢
  intro u
  rw [mem_union, mem_union, h, h']

theorem TagSet.Alike.isEmpty {a b : TagSet} (h : a.Alike b) : a.isEmpty = b.isEmpty := by
  have hlength := List.Perm.length_eq h
  rw [TagSet.isEmpty, TagSet.isEmpty, Bool.eq_iff_iff, List.isEmpty_iff_length_eq_zero,
    List.isEmpty_iff_length_eq_zero, hlength]

namespace SymbolicValue

mutual

/-- The same expression and size, the same tags in some order, and snapshots that hold for the same
operands, in the same order, values that are alike. -/
def Alike : SymbolicValue → SymbolicValue → Prop
  | ⟨e, n, ts, ⟨entries⟩⟩, ⟨e', n', ts', ⟨entries'⟩⟩ =>
    e = e' ∧ n = n' ∧ ts.Alike ts' ∧ AlikeEntries entries entries'

def AlikeEntries :
    List (Operand × List SymbolicValue) → List (Operand × List SymbolicValue) → Prop
  | [], [] => True
  | (o, vs) :: rest, (o', vs') :: rest' => o = o' ∧ AlikeValues vs vs' ∧ AlikeEntries rest rest'
  | _, _ => False

def AlikeValues : List SymbolicValue → List SymbolicValue → Prop
  | [], [] => True
  | v :: rest, v' :: rest' => Alike v v' ∧ AlikeValues rest rest'
  | _, _ => False

end

theorem alikeValues_iff {vs vs' : List SymbolicValue} :
    AlikeValues vs vs' ↔ List.Forall₂ Alike vs vs' := by
  induction vs generalizing vs' with
  | nil => cases vs' <;> simp [AlikeValues]
  | cons v rest ih => cases vs' <;> simp [AlikeValues, ih]

theorem alikeEntries_iff {es es' : List (Operand × List SymbolicValue)} :
    AlikeEntries es es' ↔
      List.Forall₂ (fun e e' => e.1 = e'.1 ∧ List.Forall₂ Alike e.2 e'.2) es es' := by
  induction es generalizing es' with
  | nil => cases es' <;> simp [AlikeEntries]
  | cons e rest ih =>
    cases es' <;> simp [AlikeEntries, ih, alikeValues_iff, and_assoc]

theorem alike_iff {v v' : SymbolicValue} :
    v.Alike v' ↔ v.expression = v'.expression ∧ v.size = v'.size ∧ v.tags.Alike v'.tags ∧
      Table.Related (List.Forall₂ Alike) v.snapshot v'.snapshot := by
  obtain ⟨e, n, ts, ⟨entries⟩⟩ := v
  obtain ⟨e', n', ts', ⟨entries'⟩⟩ := v'
  simp only [Alike, alikeEntries_iff, Table.Related]

mutual

theorem operandText_eq_of_alike :
    ∀ {v v' : SymbolicValue}, v.Alike v' → operandText v = operandText v'
  | ⟨e, n, ts, ⟨entries⟩⟩, ⟨e', n', ts', ⟨entries'⟩⟩, h => by
    simp only [Alike] at h
    obtain ⟨rfl, _, _, hentries⟩ := h
    have htexts := entryTexts_eq_of_alike hentries
    cases e <;> simp only [operandText, htexts]

theorem entryTexts_eq_of_alike :
    ∀ {es es' : List (Operand × List SymbolicValue)}, AlikeEntries es es' →
      entryTexts es = entryTexts es'
  | [], [], _ => rfl
  | (o, vs) :: rest, (o', vs') :: rest', h => by
    simp only [AlikeEntries] at h
    obtain ⟨rfl, hvalues, hrest⟩ := h
    simp only [entryTexts, valueTexts_eq_of_alike hvalues, entryTexts_eq_of_alike hrest]
  | [], _ :: _, h => by simp [AlikeEntries] at h
  | _ :: _, [], h => by simp [AlikeEntries] at h

theorem valueTexts_eq_of_alike :
    ∀ {vs vs' : List SymbolicValue}, AlikeValues vs vs' → valueTexts vs = valueTexts vs'
  | [], [], _ => rfl
  | v :: rest, v' :: rest', h => by
    simp only [AlikeValues] at h
    simp only [valueTexts, operandText_eq_of_alike h.1, valueTexts_eq_of_alike h.2]
  | [], _ :: _, h => by simp [AlikeValues] at h
  | _ :: _, [], h => by simp [AlikeValues] at h

end

theorem Alike.text {v v' : SymbolicValue} (h : v.Alike v') : v.text = v'.text := by
  obtain ⟨hexpression, _, _, hsnapshot⟩ := alike_iff.1 h
  have htexts := entryTexts_eq_of_alike (alikeEntries_iff.2 hsnapshot)
  rw [SymbolicValue.text, SymbolicValue.text, hexpression, htexts]

theorem Alike.leaf (e : Expression) : (leaf e).Alike (leaf e) :=
  alike_iff.2 ⟨rfl, rfl, List.Perm.refl _, .nil⟩

theorem Alike.singleton_leaf (e : Expression) :
    List.Forall₂ Alike [SymbolicValue.leaf e] [SymbolicValue.leaf e] :=
  .cons (.leaf e) .nil

theorem Alike.constant? {v v' : SymbolicValue} (h : v.Alike v') : v.constant? = v'.constant? := by
  rw [SymbolicValue.constant?, SymbolicValue.constant?, (alike_iff.1 h).1]

theorem Alike.addTags {v v' : SymbolicValue} (h : v.Alike v') {ts ts' : TagSet}
    (hts : ts.Alike ts') : (v.addTags ts).Alike (v'.addTags ts') := by
  obtain ⟨hexpression, hsize, htags, hsnapshot⟩ := alike_iff.1 h
  exact alike_iff.2 ⟨hexpression, hsize, htags.union hts, hsnapshot⟩

theorem Alike.addTag {v v' : SymbolicValue} (h : v.Alike v') (t : Tag) :
    (v.addTag t).Alike (v'.addTag t) := by
  obtain ⟨hexpression, hsize, htags, hsnapshot⟩ := alike_iff.1 h
  exact alike_iff.2 ⟨hexpression, hsize, htags.insert t, hsnapshot⟩

theorem valueTags_eq_of_alike {vs vs' : List SymbolicValue} (h : List.Forall₂ Alike vs vs') :
    valueTags vs = valueTags vs' := by
  induction h with
  | nil => rfl
  | cons hv _ ih =>
    have htags := TagSet.alike_iff.1 (alike_iff.1 hv).2.2.1
    rw [valueTags_cons, valueTags_cons, ih]
    simp only [htags]

theorem unions_alike {vs vs' : List SymbolicValue} (h : List.Forall₂ Alike vs vs') :
    (TagSet.unions (vs.map tags)).Alike (TagSet.unions (vs'.map tags)) := by
  have hvalues := Set.ext_iff.1 (valueTags_eq_of_alike h)
  rw [TagSet.alike_iff]
  intro t
  simpa [mem_valueTags] using hvalues t

theorem sizes_eq_of_alike {vs vs' : List SymbolicValue} (h : List.Forall₂ Alike vs vs') :
    vs.foldr (fun v n => v.size + n) 0 = vs'.foldr (fun v n => v.size + n) 0 := by
  induction h with
  | nil => rfl
  | cons hv _ ih => rw [List.foldr_cons, List.foldr_cons, ih, (alike_iff.1 hv).2.1]

theorem texts_eq_of_alike {vs vs' : List SymbolicValue} (h : List.Forall₂ Alike vs vs') :
    vs.map SymbolicValue.text = vs'.map SymbolicValue.text :=
  map_eq_of_forall₂ h fun _ _ hv => hv.text

theorem addResult_alike {results results' : List SymbolicValue}
    (h : List.Forall₂ Alike results results') {v v' : SymbolicValue} (hv : v.Alike v') :
    List.Forall₂ Alike (addResult results v) (addResult results' v') := by
  induction h with
  | nil => exact .cons hv .nil
  | @cons r r' rest rest' hr hrest ih =>
    -- Which value takes the new tags is decided by texts, and these are equal.
    rw [addResult_cons, addResult_cons, ← hr.text, ← hv.text]
    split
    · exact .cons (hr.addTags (alike_iff.1 hv).2.2.1) hrest
    · exact .cons hr ih

theorem foldl_addResult_alike {values values' results results' : List SymbolicValue}
    (hv : List.Forall₂ Alike values values') (hr : List.Forall₂ Alike results results') :
    List.Forall₂ Alike (values.foldl addResult results) (values'.foldl addResult results') := by
  induction hv generalizing results results' with
  | nil => exact hr
  | cons hv _ ih => exact ih (addResult_alike hr hv)

theorem distinct_alike {values values' : List SymbolicValue}
    (h : List.Forall₂ Alike values values') :
    List.Forall₂ Alike (distinct values) (distinct values') :=
  foldl_addResult_alike h .nil

end SymbolicValue

namespace Snapshot

open SymbolicValue

abbrev Alike (s s' : Snapshot) : Prop := Table.Related (List.Forall₂ SymbolicValue.Alike) s s'

theorem Alike.size {s s' : Snapshot} (h : Alike s s') : Snapshot.size s = Snapshot.size s' := by
  apply sizes_eq_of_alike
  exact List.rel_flatMap h fun _ _ he => he.2

theorem Alike.tags (order order' : Enumeration) {s s' : Snapshot} (h : Alike s s') :
    (@Snapshot.tags order s).Alike (@Snapshot.tags order' s') := by
  have hentry : ∀ (s : Snapshot) (t : Tag), (∃ e ∈ s.entries, t ∈ valueTags e.2) ↔
      t ∈ valueTags (s.entries.flatMap (·.2)) := by
    intro s t
    simp only [mem_valueTags, List.mem_flatMap]
    constructor
    · rintro ⟨e, he, v, hv, ht⟩
      exact ⟨v, ⟨e, he, hv⟩, ht⟩
    · rintro ⟨v, ⟨e, he, hv⟩, ht⟩
      exact ⟨e, he, v, hv, ht⟩
  have hvalues := valueTags_eq_of_alike (List.rel_flatMap h fun _ _ he => he.2)
  rw [TagSet.alike_iff]
  intro t
  rw [@mem_tags order, @mem_tags order', hentry, hentry, hvalues]

end Snapshot

/-- Over snapshots that are alike, values made in different orders are alike. This is the only place
where the order matters at all. -/
theorem SymbolicValue.make_alike (order order' : Enumeration) (e : Expression) {s s' : Snapshot}
    (h : Snapshot.Alike s s') : (@make order e s).Alike (@make order' e s') := by
  have hsize := Snapshot.Alike.size h
  have htags := Snapshot.Alike.tags order order' h
  refine alike_iff.2 ⟨rfl, ?_, htags, ?_⟩
  · simp only [make, hsize]
  · simp only [make, hsize]
    split
    · exact .nil
    · exact h

namespace History

open SymbolicValue

def Alike (h h' : History) : Prop :=
  List.Forall₂ (fun w w' => w.1 = w'.1 ∧ List.Forall₂ SymbolicValue.Alike w.2 w'.2)
    h.entries h'.entries

theorem Alike.record {h h' : History} (hh : Alike h h') (condition : Option Condition)
    {values values' : List SymbolicValue} (hv : List.Forall₂ SymbolicValue.Alike values values') :
    Alike (h.record condition values) (h'.record condition values') :=
  List.rel_append hh (.cons ⟨rfl, hv⟩ .nil)

theorem Alike.latest? {h h' : History} (hh : Alike h h') :
    Option.Rel (List.Forall₂ SymbolicValue.Alike) (h.latest? none) (h'.latest? none) := by
  -- Without a condition the first entry from the end counts.
  have hlast : ∀ h : History, h.latest? none = h.entries.reverse.head?.bind fun w => some w.2 := by
    intro h
    unfold History.latest?
    cases h.entries.reverse <;> simp [isCoherent]
  rw [hlast, hlast]
  exact rel_bind (rel_head? (List.rel_reverse hh)) fun _ _ hw => .some hw.2

end History

namespace Environment

open SymbolicValue

structure Alike (env env' : Environment) : Prop where
  histories : Table.Related History.Alike env.histories env'.histories
  byText : env.byText = env'.byText
  limit : env.limit = env'.limit

theorem Alike.new (limit : Nat) : Alike (new limit) (new limit) := ⟨.nil, rfl, rfl⟩

variable {env env' : Environment}

theorem Alike.get? (h : Alike env env') (o : Operand) :
    Option.Rel History.Alike (env.get? o) (env'.get? o) := by
  unfold Environment.get?
  obtain ⟨hown, hown'⟩ | ⟨own, own', hown, hown', hhistory⟩ := rel_cases (h.histories.get? o)
  · rw [hown, hown', h.byText]
    cases env'.byText.get? o.text with
    | none => exact .none
    | some k => exact h.histories.get? k
  · rw [hown, hown']
    exact .some hhistory

theorem Alike.resolve? (h : Alike env env') (o : Operand) :
    Option.Rel (List.Forall₂ SymbolicValue.Alike) (env.resolve? o) (env'.resolve? o) :=
  rel_bind (h.get? o) fun _ _ hh => hh.latest?

theorem Alike.resolveOperand? (h : Alike env env') (o : Operand) :
    Option.Rel (List.Forall₂ SymbolicValue.Alike) (env.resolveOperand? o)
      (env'.resolveOperand? o) := by
  cases o with
  | literal c => exact .some (Alike.singleton_leaf _)
  | named name type => exact h.resolve? _
  | returnSlot => exact h.resolve? _

theorem Alike.resolveOrUnknown (h : Alike env env') (o : Operand) :
    List.Forall₂ SymbolicValue.Alike (env.resolveOrUnknown o) (env'.resolveOrUnknown o) := by
  have hunknown : List.Forall₂ SymbolicValue.Alike [unknownFor o] [unknownFor o] :=
    Alike.singleton_leaf _
  unfold Environment.resolveOrUnknown
  obtain ⟨hnone, hnone'⟩ | ⟨values, values', hsome, hsome', hv⟩ :=
    rel_cases (h.resolveOperand? o)
  · rw [hnone, hnone']
    exact hunknown
  · rw [hsome, hsome']
    cases hv with
    | nil => exact hunknown
    | cons hv hrest => exact .cons hv hrest

theorem Alike.copied (h : Alike env env') (o : Operand) (e : Expression) :
    List.Forall₂ SymbolicValue.Alike (Effect.copied env o (.leaf e))
      (Effect.copied env' o (.leaf e)) :=
  rel_getD (h.resolveOperand? o) (Alike.singleton_leaf e)

theorem Alike.tagsOf (h : Alike env env') (o : Operand) : (env.tagsOf o).Alike (env'.tagsOf o) :=
  unions_alike (rel_getD (h.resolve? o) .nil)

theorem Alike.held? (h : Alike env env') (o : Operand) :
    Option.Rel (fun e e' => e.1 = e'.1 ∧ List.Forall₂ SymbolicValue.Alike e.2 e'.2)
      (env.held? o) (env'.held? o) := by
  unfold Environment.held?
  split
  · exact .none
  · obtain ⟨hnone, hnone'⟩ | ⟨values, values', hsome, hsome', hv⟩ := rel_cases (h.resolve? o)
    · rw [hnone, hnone']
      exact .none
    · rw [hsome, hsome']
      exact .some ⟨rfl, hv⟩

theorem Alike.capture (h : Alike env env') (operands : List Operand) :
    Snapshot.Alike (env.capture operands) (env'.capture operands) := by
  rw [capture_eq, capture_eq]
  have hheld : List.Forall₂ (fun e e' => e.1 = e'.1 ∧ List.Forall₂ SymbolicValue.Alike e.2 e'.2)
      (operands.filterMap env.held?) (operands.filterMap env'.held?) := by
    refine List.rel_filterMap (R := Eq) ?_ (List.forall₂_refl operands)
    rintro o _ rfl
    exact h.held? o
  refine List.rel_foldl (P := Snapshot.Alike) ?_ .nil hheld
  rintro s s' hs ⟨o, values⟩ ⟨o', values'⟩ ⟨rfl, hv⟩
  exact hs.insert o hv

theorem Alike.makeIn (order order' : Enumeration) (h : Alike env env') (e : Expression) :
    (@SymbolicValue.makeIn order env e).Alike (@SymbolicValue.makeIn order' env' e) :=
  make_alike order order' e (h.capture e.operands)

theorem collapse_alike (limit : Nat) (o : Operand) {values values' : List SymbolicValue}
    (h : List.Forall₂ SymbolicValue.Alike values values') :
    List.Forall₂ SymbolicValue.Alike (collapse limit o values) (collapse limit o values') := by
  have hunknown : (unknownFor o).Alike (unknownFor o) := Alike.leaf _
  unfold collapse
  rw [h.length_eq]
  split
  · exact .cons (hunknown.addTags (unions_alike h)) .nil
  · exact h

theorem Alike.update (h : Alike env env') (o : Operand) {values values' : List SymbolicValue}
    (hv : List.Forall₂ SymbolicValue.Alike values values') (condition : Option Condition) :
    Alike (env.update o values condition) (env'.update o values' condition) where
  histories := by
    have hprior : History.Alike ((env.histories.get? o).getD .empty)
        ((env'.histories.get? o).getD .empty) := rel_getD (h.histories.get? o) .nil
    have hnew := hprior.record condition (collapse_alike env.limit o hv)
    simp only [Environment.update, ← h.limit]
    exact h.histories.insert o hnew
  byText := by rw [Environment.update, Environment.update, h.byText]
  limit := h.limit

end Environment

end Provenance
