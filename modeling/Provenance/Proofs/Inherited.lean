import Provenance.Proofs.Built

set_option autoImplicit false

namespace Provenance

namespace SymbolicValue

theorem Built.tags_held {v w : SymbolicValue} (h : v.Built)
    {entry : Operand × List SymbolicValue} (he : entry ∈ v.snapshot.entries) (hw : w ∈ entry.2)
    {t : Tag} (ht : t ∈ w.tags) : t ∈ v.tags := by
  induction h with
  | make order e held =>
    have hkept := (mem_snapshot_make he).1
    exact (@Snapshot.mem_tags order _ t).2 ⟨entry, hkept, w, hw, ht⟩
  | annotate note h ih =>
    rw [snapshot_annotate] at he
    rw [tags_annotate]
    exact ih he
  | addTag u h ih => exact TagSet.mem_insert.2 (Or.inl (ih he))
  | addTags ts h ih => exact TagSet.mem_union.2 (Or.inl (ih he))

theorem tags_of_within {depth : Nat} {w v : SymbolicValue} (hwithin : Within depth w v)
    (h : v.Built) {t : Tag} (ht : t ∈ w.tags) : t ∈ v.tags := by
  induction hwithin with
  | here he hw => exact h.tags_held he hw ht
  | deeper he hu _ ih =>
    have hinner := ih (h.held he hu) ht
    exact h.tags_held he hu hinner

theorem mem_tags_makeIn [Enumeration] (env : Environment) (e : Expression) (t : Tag) :
    t ∈ (makeIn env e).tags ↔ ∃ o ∈ e.operands, o.isLiteral = false ∧
      ∃ values, env.resolve? o = some values ∧ ∃ v ∈ values, t ∈ v.tags := by
  have hmade : t ∈ (makeIn env e).tags ↔ t ∈ env.tagsAmong e.operands :=
    Environment.mem_tags_capture
  rw [hmade, Environment.mem_tagsAmong]
  simp only [Environment.tagsAt_eq]
  constructor
  · rintro ⟨o, ho, hl, v, hv, ht⟩
    cases hr : env.resolve? o with
    | none => simp [hr] at hv
    | some values =>
      rw [hr] at hv
      exact ⟨o, ho, hl, values, hr, v, hv, ht⟩
  · rintro ⟨o, ho, hl, values, hr, hv⟩
    refine ⟨o, ho, hl, ?_⟩
    rw [hr]
    exact hv

end SymbolicValue

namespace Visit

open SymbolicValue

/-- Where a value can be met at one moment of a visit: in a history, among the returned values, or
in the answer of a recognizer, or of all of them, to some call. -/
inductive Shows [Enumeration] (v : Visit) (u : SymbolicValue) : Prop where
  | stored (h : v.environment.Stores u)
  | returned (h : u ∈ v.returns)
  | recognized {r : Recognizer} (hr : r ∈ Recognizer.standard) {call : CallSite}
      {values : List SymbolicValue} (h : r.recognize call v.environment = .ok (some values))
      (hu : u ∈ values)
  | answered {call : CallSite} {values : List SymbolicValue}
      (h : Chain.recognize Recognizer.standard call v.environment = .ok (some values))
      (hu : u ∈ values)

theorem Shows.built [Enumeration] {v : Visit} {u : SymbolicValue} (hshown : v.Shows u)
    (h : v.Built) : u.Built := by
  cases hshown with
  | stored hstored => exact h.stored u hstored
  | returned hreturned => exact h.returned u hreturned
  | @recognized r hr call values hanswer hu =>
    have hbuilt := Recognizer.builds_standard r hr call v.environment h.stored
    rw [hanswer] at hbuilt
    exact hbuilt u hu
  | @answered call values hanswer hu =>
    have hbuilt := Chain.allBuilt_recognize Recognizer.builds_standard h.stored call
    rw [hanswer] at hbuilt
    exact hbuilt u hu

/-- Whatever value is met in a visit, each tag of a value in its snapshot, at any depth, is a tag of
its own. And a value made in any environment has exactly the tags of what its operands resolve to
there, literals apart; that its snapshot may be too large to keep makes no difference. -/
theorem tags_inherited [Enumeration] :
    (∀ (names : KnownName.Cache) (limit : Nat) (body : Body) (n : Nat) (u : SymbolicValue),
      (upTo Recognizer.standard names limit body n).Shows u →
        ∀ depth w, Within depth w u → ∀ t ∈ w.tags, t ∈ u.tags) ∧
    ∀ (env : Environment) (e : Expression) (t : Tag),
      t ∈ (makeIn env e).tags ↔ ∃ o ∈ e.operands, o.isLiteral = false ∧
        ∃ values, env.resolve? o = some values ∧ ∃ v ∈ values, t ∈ v.tags := by
  constructor
  · intro names limit body n u hshown depth w hwithin t ht
    have hvisit := built_upTo Recognizer.builds_standard names limit body n
    exact tags_of_within hwithin (hshown.built hvisit) ht
  · exact mem_tags_makeIn

theorem sender_tag_inherited :
    let visit := upTo Recognizer.standard .empty 16 senderBody 4
    ∃ u w, visit.Shows u ∧ Within 1 w u ∧ Tag.smsSender ∈ w.tags ∧ Tag.smsSender ∈ u.tags := by
  intro visit
  have hfound : (((visit.environment.resolve? (.named "r3" "java.lang.String")).getD []).any
      fun u => u.snapshot.entries.any fun e => e.2.any fun w =>
        decide (Tag.smsSender ∈ w.tags)) = true := by decide +kernel
  simp only [List.any_eq_true, decide_eq_true_eq] at hfound
  obtain ⟨u, hu, e, he, w, hw, ht⟩ := hfound
  have hshown : visit.Shows u := by
    cases hr : visit.environment.resolve? (.named "r3" "java.lang.String") with
    | none => simp [hr] at hu
    | some values => exact .stored (Environment.stores_of_resolve? hr (by simpa [hr] using hu))
  have hwithin : Within 1 w u := .here he hw
  exact ⟨u, w, hshown, hwithin, ht,
    tags_inherited.1 .empty 16 senderBody 4 u hshown 1 w hwithin _ ht⟩

end Visit

end Provenance
