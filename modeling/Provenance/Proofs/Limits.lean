import Provenance.Proofs.Related
import Provenance.Proofs.Transfer

/-!
Two visits of one body that differ in the number of values they keep apart. The values of the two
environments have little in common: one folds constants where the other has given up on them. But
the tags of what a statement writes are a function of the tags of its operands, unless it cuts a
string, and giving up on values keeps their tags. So tags and flows are the same at every point.
-/

set_option autoImplicit false

namespace Provenance

def History.tags (h : History) : Set Tag := valueTags ((h.latest? none).getD [])

theorem History.tags_record (h : History) (condition : Option Condition)
    (values : List SymbolicValue) : (h.record condition values).tags = valueTags values := by
  rw [History.tags, History.latest?_record, Option.getD_some]

namespace Environment

/-- The same operands were written, the same one last under each text, and each has the same tags.
What their values are does not matter. -/
structure SameTags (env env' : Environment) : Prop where
  histories : ∀ o, (env.histories.get? o).map History.tags =
    (env'.histories.get? o).map History.tags
  byText : ∀ text, env.byText.get? text = env'.byText.get? text

theorem map_tags_get? (env : Environment) (o : Operand) :
    (env.get? o).map History.tags =
      ((env.histories.get? o).map History.tags).or
        ((env.byText.get? o.text).bind fun k => (env.histories.get? k).map History.tags) := by
  cases h : env.histories.get? o with
  | some history => simp [get?, h]
  | none => simp [get?, h, Option.map_bind]

theorem tagsAt_eq_history (env : Environment) (o : Operand) :
    env.tagsAt o = ((env.get? o).map History.tags).getD ∅ := by
  rw [tagsAt_eq, resolve?]
  cases env.get? o with
  | none => simp
  | some history => rfl

namespace SameTags

variable {env env' : Environment}

theorem tagsAt (h : SameTags env env') (o : Operand) : env.tagsAt o = env'.tagsAt o := by
  have hkeys : ∀ k, (env.histories.get? k).map History.tags =
      (env'.histories.get? k).map History.tags := h.histories
  rw [tagsAt_eq_history, tagsAt_eq_history, map_tags_get?, map_tags_get?, h.byText, hkeys o]
  simp only [hkeys]

theorem tagsAmong (h : SameTags env env') (os : List Operand) :
    env.tagsAmong os = env'.tagsAmong os := by
  ext t
  simp only [mem_tagsAmong, h.tagsAt]

theorem new (limit limit' : Nat) : SameTags (new limit) (new limit') :=
  ⟨fun _ => rfl, fun _ => rfl⟩

theorem update (h : SameTags env env') (o : Operand) {values values' : List SymbolicValue}
    (hv : valueTags values = valueTags values') (condition : Option Condition) :
    SameTags (env.update o values condition) (env'.update o values' condition) where
  histories j := by
    rw [histories_update, histories_update]
    by_cases hj : j = o
    · simp [hj, History.tags_record, hv]
    · simpa [hj] using h.histories j
  byText text := by
    rw [byText_update, byText_update, h.byText]

/-- The tags of what a call returns depend on the tags of its operands only, as long as nothing is
cut out of a string. -/
theorem modelTags (h : SameTags env env') {call : CallSite} (hk : call.knownName ≠ .substring) :
    call.modelTags env = call.modelTags env' := by
  unfold CallSite.modelTags
  split
  · simp only [h.tagsAt, h.tagsAmong]
  · simp only [h.tagsAt, h.tagsAmong]
  · simp only [h.tagsAt, h.tagsAmong]
  · rename_i hsub
    exact absurd hsub hk
  · simp only [h.tagsAt, h.tagsAmong]
  · simp only [h.tagsAt]
  · simp only [h.tagsAt]
  · simp only [h.tagsAt]
  · simp only [h.tagsAmong]

end SameTags

end Environment

def Instruction.CallsSubstring : Instruction → Prop
  | .invoke _ method _ _ => method.className = KnownName.stringClass ∧ method.name = "substring"
  | _ => False

theorem Method.calls_of_substring {m : Method} (h : m.knownName = .substring) :
    m.className = KnownName.stringClass ∧ m.name = "substring" := by
  rcases m.knownName_cases with ⟨hclass, hk⟩ | ⟨_, hk⟩ | ⟨_, hk⟩ | hk | hk
  · rw [h] at hk
    refine ⟨hclass, ?_⟩
    unfold KnownName.ofString at hk
    split at hk <;> simp_all
  · rw [h] at hk
    unfold KnownName.ofBuilder at hk
    split at hk <;> simp at hk
  · have hsource := KnownName.sourceTag?_of_ofMessage hk
    simp [h, KnownName.sourceTag?] at hsource
  · simp [h] at hk
  · simp [h] at hk

abbrev Flow.Matches : Flow → Flow → Prop := Flow.Related fun ts ts' => ∀ t, t ∈ ts ↔ t ∈ ts'

namespace Environment.SameTags

variable {env env' : Environment}

theorem transfer (h : SameTags env env') {i : Instruction} (hi : ¬ i.CallsSubstring) :
    i.transfer env = i.transfer env' := by
  cases i with
  | invoke result method receiver arguments =>
    have hk : (CallSite.named method receiver arguments).knownName ≠ .substring :=
      fun hk => hi (Method.calls_of_substring hk)
    simp only [Instruction.transfer, CallSite.transfer, h.tagsAmong, h.modelTags hk]
  | _ => simp only [Instruction.transfer, h.tagsAmong]

theorem isEmpty_tagsOf (h : SameTags env env') (o : Operand) :
    (env.tagsOf o).isEmpty = (env'.tagsOf o).isEmpty := by
  have hmem : ∀ t, t ∈ (env.tagsOf o).toList ↔ t ∈ (env'.tagsOf o).toList :=
    fun t => Set.ext_iff.1 (h.tagsAt o) t
  rw [Bool.eq_iff_iff]
  simp only [TagSet.isEmpty, List.isEmpty_iff, List.eq_nil_iff_forall_not_mem, hmem]

theorem flowsInto (h : SameTags env env') (caller : Method) (call : CallSite) :
    List.Forall₂ Flow.Matches (Effect.flowsInto env caller call)
      (Effect.flowsInto env' caller call) :=
  Effect.flowsInto_related h.isEmpty_tagsOf (fun a t => Set.ext_iff.1 (h.tagsAt a) t) caller call

theorem flows [Enumeration] (h : SameTags env env') (caller : Method) (i : Instruction) :
    List.Forall₂ Flow.Matches (Effect.standard env caller i).flows
      (Effect.standard env' caller i).flows := by
  cases i with
  | invoke result method receiver arguments =>
    rw [Effect.flows_standard, Effect.flows_standard]
    split
    · exact h.flowsInto caller _
    · exact .nil
  | giveBack value => cases value <;> exact .nil
  | _ => exact .nil

theorem writeAll (h : SameTags env env') (condition : Option Condition) {tags : Set Tag}
    {writes writes' : List (Operand × List SymbolicValue)}
    (htargets : writes.map (·.1) = writes'.map (·.1)) (hw : ∀ w ∈ writes, valueTags w.2 = tags)
    (hw' : ∀ w ∈ writes', valueTags w.2 = tags) :
    SameTags (Visit.writeAll env condition writes) (Visit.writeAll env' condition writes') := by
  have hpaired : List.Forall₂ (fun w w' => w.1 = w'.1) writes writes' := by
    rw [← List.forall₂_eq_eq_eq, List.forall₂_map_left_iff, List.forall₂_map_right_iff] at htargets
    exact htargets
  obtain ⟨hlength, hkeys⟩ := List.forall₂_iff_zip.1 hpaired
  have hwrites : List.Forall₂ (fun w w' => w.1 = w'.1 ∧ valueTags w.2 = valueTags w'.2)
      writes writes' := by
    refine List.forall₂_iff_zip.2 ⟨hlength, fun {w w'} hmem => ⟨hkeys hmem, ?_⟩⟩
    obtain ⟨hleft, hright⟩ := List.of_mem_zip hmem
    exact (hw w hleft).trans (hw' w' hright).symm
  refine Visit.writeAll_related (S := fun values values' => valueTags values = valueTags values')
    ?_ hwrites h
  exact fun henv o _ _ hvalues => henv.update o hvalues condition

end Environment.SameTags

namespace Visit

structure SameTags (v v' : Visit) : Prop where
  environment : v.environment.SameTags v'.environment
  returns : valueTags v.returns = valueTags v'.returns
  flows : List.Forall₂ Flow.Matches v.flows v'.flows

theorem valueTags_foldl_addResult (values results : List SymbolicValue) :
    valueTags (values.foldl SymbolicValue.addResult results) =
      valueTags results ∪ valueTags values := by
  ext t
  exact SymbolicValue.tagged_foldl values results

theorem valueTags_returns_standard [Enumeration] (env : Environment) (caller : Method)
    (i : Instruction) :
    valueTags (Effect.standard env caller i).returns =
      match i with
      | .giveBack value => env.tagsAmong value.toList
      | _ => ∅ := by
  cases i with
  | invoke result method receiver arguments =>
    rw [Effect.returns_standard]
    exact valueTags_nil
  | giveBack value =>
    cases value with
    | none => simp [Effect.standard, Effect.ofInstruction, Effect.nothing]
    | some value => exact env.valueTags_copied value _
  | _ => exact valueTags_nil

theorem SameTags.step [Enumeration] {v v' : Visit} (h : SameTags v v') (caller : Method)
    {s : Statement} (hs : ¬ s.instruction.CallsSubstring) :
    SameTags (v.step Recognizer.standard caller s) (v'.step Recognizer.standard caller s) where
  environment := by
    have htargets := Effect.targets_standard v.environment caller s.instruction
    have htargets' := Effect.targets_standard v'.environment caller s.instruction
    have htags := Effect.valueTags_standard v.environment caller s.instruction
    have htags' := Effect.valueTags_standard v'.environment caller s.instruction
    rw [← h.environment.transfer hs] at htags'
    rw [environment_step, environment_step]
    exact h.environment.writeAll s.guard (htargets.trans htargets'.symm) htags htags'
  returns := by
    rw [returns_step, returns_step, valueTags_foldl_addResult, valueTags_foldl_addResult,
      valueTags_returns_standard, valueTags_returns_standard, h.returns]
    split
    · rw [h.environment.tagsAmong]
    · rfl
  flows := by
    rw [flows_step, flows_step]
    exact List.rel_append h.flows (h.environment.flows caller s.instruction)

theorem sameTags_upTo [Enumeration] (names names' : KnownName.Cache) (limit limit' : Nat)
    {body : Body} (hbody : ∀ s ∈ body.statements, ¬ s.instruction.CallsSubstring) (n : Nat) :
    SameTags (upTo Recognizer.standard names limit body n)
      (upTo Recognizer.standard names' limit' body n) := by
  induction n with
  | zero => exact ⟨.new limit limit', rfl, .nil⟩
  | succ n ih =>
    cases hs : body.statements[n]? with
    | none =>
      rw [upTo_succ_of_none Recognizer.standard names limit hs,
        upTo_succ_of_none Recognizer.standard names' limit' hs]
      exact ih
    | some s =>
      rw [upTo_succ Recognizer.standard names limit hs,
        upTo_succ Recognizer.standard names' limit' hs]
      exact ih.step body.method (hbody s (List.mem_of_getElem? hs))

/-- The limit does not change which flows are found. For a body that cuts no strings, visits under
any two limits agree after every statement: on the flows one by one, on the tags of every operand
and on the tags of what was returned. -/
theorem tags_eq_under_limits [Enumeration] (names names' : KnownName.Cache) (limit limit' : Nat)
    {body : Body} (hbody : ∀ s ∈ body.statements, ¬ s.instruction.CallsSubstring) (n : Nat) :
    let v := upTo Recognizer.standard names limit body n
    let v' := upTo Recognizer.standard names' limit' body n
    List.Forall₂ (fun f f' => f.method = f'.method ∧ f.callee = f'.callee ∧
        f.argument = f'.argument ∧ ∀ t, t ∈ f.tags ↔ t ∈ f'.tags) v.flows v'.flows ∧
      (∀ o t, t ∈ v.environment.tagsOf o ↔ t ∈ v'.environment.tagsOf o) ∧
      ∀ t, (∃ r ∈ v.returns, t ∈ r.tags) ↔ ∃ r ∈ v'.returns, t ∈ r.tags := by
  intro v v'
  have hsame : SameTags v v' := sameTags_upTo names names' limit limit' hbody n
  refine ⟨?_, ?_, ?_⟩
  · exact hsame.flows.imp fun f f' h => ⟨h.method, h.callee, h.argument, h.tags⟩
  · intro o t
    exact Set.ext_iff.1 (hsame.environment.tagsAt o) t
  · intro t
    exact Set.ext_iff.1 hsame.returns t

def noteBody : Body where
  method := ⟨"com.example.Receiver", "note", ["android.telephony.SmsMessage"], "java.lang.String"⟩
  statements :=
    [⟨none, .invoke (some (.named "r1" "java.lang.String"))
      ⟨"android.telephony.SmsMessage", "getOriginatingAddress", [], "java.lang.String"⟩
      (some (.named "r0" "android.telephony.SmsMessage")) []⟩,
     ⟨none, .invoke none ⟨"java.lang.StringBuilder", "<init>", ["java.lang.String"], "void"⟩
      (some (.named "r2" "java.lang.StringBuilder")) [.literal (.str "from ")]⟩,
     ⟨none, .invoke none ⟨"java.lang.StringBuilder", "append", ["java.lang.String"],
      "java.lang.StringBuilder"⟩ (some (.named "r2" "java.lang.StringBuilder"))
      [.named "r1" "java.lang.String"]⟩,
     ⟨none, .invoke (some (.named "r3" "java.lang.String"))
      ⟨"java.lang.StringBuilder", "toString", [], "java.lang.String"⟩
      (some (.named "r2" "java.lang.StringBuilder")) []⟩,
     ⟨none, .invoke none ⟨"android.util.Log", "d", ["java.lang.String"], "int"⟩ none
      [.named "r3" "java.lang.String"]⟩,
     ⟨none, .giveBack (some (.named "r3" "java.lang.String"))⟩]

theorem noteBody_under_limits :
    let v := upTo Recognizer.standard .empty 0 noteBody 6
    let v' := upTo Recognizer.standard .empty 16 noteBody 6
    (∀ s ∈ noteBody.statements, ¬ s.instruction.CallsSubstring) ∧
      v.returns.map SymbolicValue.text ≠ v'.returns.map SymbolicValue.text ∧
      v.flows.length = 1 ∧ v'.flows.length = 1 ∧
      ∀ t, (∃ r ∈ v.returns, t ∈ r.tags) ↔ ∃ r ∈ v'.returns, t ∈ r.tags := by
  have hbody : ∀ s ∈ noteBody.statements, ¬ s.instruction.CallsSubstring := by
    simp [noteBody, Instruction.CallsSubstring]
  have hsame := tags_eq_under_limits .empty .empty 0 16 hbody 6
  have hone : (upTo Recognizer.standard .empty 16 noteBody 6).flows.length = 1 := by
    decide +kernel
  exact ⟨hbody, by decide +kernel, hsame.1.length_eq.trans hone, hone, hsame.2.2⟩

end Visit

end Provenance
