import Provenance.Proofs.AppendOnly
import Provenance.Proofs.Route
import Provenance.Proofs.Transfer

set_option autoImplicit false

namespace Provenance

namespace History

theorem latest?_append_of_incoherent (entries : List (Option Condition × List SymbolicValue))
    {later : List (Option Condition × List SymbolicValue)} {query : Option Condition}
    (h : ∀ e ∈ later, isCoherent query e.1 = false) :
    latest? ⟨entries ++ later⟩ query = latest? ⟨entries⟩ query := by
  have hnone : later.reverse.find? (fun e => isCoherent query e.1) = none := by
    rw [List.find?_eq_none]
    intro e he
    simp [h e (List.mem_reverse.1 he)]
  simp [latest?, hnone]

end History

namespace Environment

theorem get?_of_history {env : Environment} {o : Operand} {history : History}
    (h : env.histories.get? o = some history) : env.get? o = some history := by
  simp [get?, h]

theorem latest?_recorded (env : Environment) (o : Operand) (query : Option Condition) :
    History.latest? ⟨env.recorded o⟩ query = (env.histories.get? o).bind (·.latest? query) := by
  unfold recorded
  cases env.histories.get? o <;> rfl

end Environment

/-- The tags that an unmodelled call shows for a printed form are those of the arguments that print
so. Two operands of different types may print the same. -/
theorem Effect.exists_mem_flows_iff [Enumeration] (env : Environment) (caller : Method)
    {method : Method} {receiver : Option Operand} {arguments : List Operand}
    (hv : (CallSite.named method receiver arguments).verdict = .unmodelled)
    (result : Option Operand) (text : String) (t : Tag) :
    (∃ f ∈ (standard env caller (.invoke result method receiver arguments)).flows,
        f.argument = text ∧ t ∈ f.tags) ↔
      ∃ o ∈ arguments, o.text = text ∧ t ∈ env.tagsOf o := by
  constructor
  · rintro ⟨f, hf, htext, ht⟩
    rw [flows_standard, if_pos hv] at hf
    obtain ⟨o, ho, hflow⟩ := List.mem_filterMap.1 hf
    have hmade : ⟨caller.text, method.text, o.text, (env.tagsOf o).toList⟩ = f := by
      simpa [CallSite.named] using (Option.ite_none_left_eq_some.1 hflow).2
    subst hmade
    exact ⟨o, ho, htext, TagSet.mem_toList.1 ht⟩
  · rintro ⟨o, ho, htext, ht⟩
    exact ⟨_, mem_flows_of_unmodelled env caller hv result ho ht, htext, TagSet.mem_toList.2 ht⟩

namespace Visit

theorem histories_step_of_written [Enumeration] (caller : Method) (v : Visit) {s : Statement}
    {x : Operand} (hx : x ∈ s.instruction.targets) (hl : x.isLiteral = false) :
    ∃ history values,
      (v.step Recognizer.standard caller s).environment.histories.get? x = some history ∧
      history.latest? none = some values ∧
      valueTags values = s.instruction.transfer v.environment := by
  rw [← Effect.targets_standard v.environment caller] at hx
  obtain ⟨values, history, hmem, hget, hlatest⟩ :=
    histories_writeAll_of_written v.environment s.guard hl hx
  have htags := Effect.valueTags_standard v.environment caller s.instruction _ hmem
  refine ⟨history, _, ?_, hlatest, ?_⟩
  · rw [environment_step, hget]
  · rw [valueTags_collapse, htags]

theorem latest?_step_of_guard [Enumeration] (chain : Chain) (caller : Method) (v : Visit)
    {s : Statement} {c d : Condition} (hguard : s.guard = some c) (hd : d ≠ c) (x : Operand) :
    ((v.step chain caller s).environment.histories.get? x).bind (·.latest? (some d)) =
      (v.environment.histories.get? x).bind (·.latest? (some d)) := by
  obtain ⟨given, henv, _⟩ := environment_step_eq_updateAll chain caller v s
  rw [← Environment.latest?_recorded, ← Environment.latest?_recorded, henv,
    Environment.recorded_updateAll]
  apply History.latest?_append_of_incoherent
  intro e he
  rw [List.eq_of_mem_replicate he, hguard]
  simpa [History.isCoherent] using hd

section

variable [Enumeration] (names : KnownName.Cache) (limit : Nat) {body : Body} {n j : Nat}
  {s : Statement} {x : Operand} (hs : body.statements[n]? = some s)
  (hx : x ∈ s.instruction.targets) (hl : x.isLiteral = false)
  (hnj : n < j) (kept : Untouched body.statements n j x)

include hs hx hl hnj kept

/-- What was written has a history of its own, so that it is not looked up by its text. -/
theorem get?_upTo_of_written :
    let before := upTo Recognizer.standard names limit body n
    (upTo Recognizer.standard names limit body j).environment.get? x =
      (before.step Recognizer.standard body.method s).environment.histories.get? x := by
  intro before
  have hsame := histories_upTo_of_untouched names limit hnj kept
  rw [upTo_succ Recognizer.standard names limit hs] at hsame
  obtain ⟨history, _, hget, _⟩ := histories_step_of_written body.method before hx hl
  rw [Environment.get?_of_history (hsame.trans hget), hget]

theorem tagsAt_upTo_of_written :
    (upTo Recognizer.standard names limit body j).environment.tagsAt x =
      s.instruction.transfer (upTo Recognizer.standard names limit body n).environment := by
  have hfound := get?_upTo_of_written names limit hs hx hl hnj kept
  obtain ⟨history, values, hget, hlatest, hvalues⟩ :=
    histories_step_of_written body.method (upTo Recognizer.standard names limit body n) hx hl
  have hresolve :
      (upTo Recognizer.standard names limit body j).environment.resolve? x = some values := by
    rw [Environment.resolve?, hfound, hget]
    exact hlatest
  rw [Environment.tagsAt_of_resolve? hresolve, hvalues]

end

/-- After a guarded statement, and until it is written again, an operand that it writes has exactly
the tags of the new values, guard or no guard. An unmodelled call then shows those for it, next to
what other arguments that print the same have. The older entries are still there: under every
condition but the guard, a lookup finds what the operand itself had before. -/
theorem guarded_write_decides [Enumeration] (names : KnownName.Cache) (limit : Nat) {body : Body}
    {n j : Nat} {s : Statement} {c : Condition} {x : Operand}
    (hs : body.statements[n]? = some s) (hguard : s.guard = some c)
    (hx : x ∈ s.instruction.targets) (hl : x.isLiteral = false)
    (hnj : n < j) (kept : Untouched body.statements n j x) :
    let visit := upTo Recognizer.standard names limit body
    let before := (visit n).environment
    let after := (visit j).environment
    let given := s.instruction.transfer before
    (∀ t, t ∈ after.tagsOf x ↔ t ∈ given) ∧
      (∀ d, d ≠ c → (after.get? x).bind (·.latest? (some d)) =
        (before.histories.get? x).bind (·.latest? (some d))) ∧
      ∀ guard result method receiver arguments,
        body.statements[j]? = some ⟨guard, .invoke result method receiver arguments⟩ →
        (CallSite.named method receiver arguments).verdict = .unmodelled → x ∈ arguments →
        ∃ shown, (visit (j + 1)).flows = (visit j).flows ++ shown ∧
          ∀ t, (∃ f ∈ shown, f.argument = x.text ∧ t ∈ f.tags) ↔
            t ∈ given ∨ ∃ y ∈ arguments, y ≠ x ∧ y.text = x.text ∧ t ∈ after.tagsOf y := by
  intro visit before after given
  have htags : ∀ t, t ∈ after.tagsOf x ↔ t ∈ given :=
    Set.ext_iff.1 (tagsAt_upTo_of_written names limit hs hx hl hnj kept)
  refine ⟨htags, ?_, ?_⟩
  · intro d hd
    rw [get?_upTo_of_written names limit hs hx hl hnj kept]
    exact latest?_step_of_guard Recognizer.standard body.method (visit n) hguard hd x
  · intro guard result method receiver arguments hcall hv hmem
    refine ⟨(Effect.standard after body.method (.invoke result method receiver arguments)).flows,
      ?_, ?_⟩
    · have hlast : visit (j + 1) = (visit j).step Recognizer.standard body.method _ :=
        upTo_succ Recognizer.standard names limit hcall
      rw [hlast, flows_step]
    · intro t
      rw [Effect.exists_mem_flows_iff after body.method hv, ← htags]
      constructor
      · rintro ⟨o, ho, htext, ht⟩
        by_cases hox : o = x
        · rw [hox] at ht
          exact Or.inl ht
        · exact Or.inr ⟨o, ho, hox, htext, ht⟩
      · rintro (ht | ⟨o, ho, _, htext, ht⟩)
        · exact ⟨x, hmem, rfl, ht⟩
        · exact ⟨o, ho, htext, ht⟩

def maskedBody : Body where
  method := ⟨"com.example.Receiver", "onReceive", ["android.telephony.SmsMessage"], "void"⟩
  statements :=
    [⟨none, .invoke (some (.named "r1" "java.lang.String"))
      ⟨"android.telephony.SmsMessage", "getOriginatingAddress", [], "java.lang.String"⟩
      (some (.named "r0" "android.telephony.SmsMessage")) []⟩,
     ⟨some ⟨"r1 == null"⟩, .assign (.named "r1" "java.lang.String") (.literal (.str "unknown"))⟩,
     ⟨none, .invoke none ⟨"android.util.Log", "d", ["java.lang.String"], "int"⟩ none
      [.named "r1" "java.lang.String"]⟩]

/-- A guarded write can hide a tag: the sender is logged if it is there, but no flow is shown. -/
theorem guarded_write_hides_sender :
    let visit := upTo Recognizer.standard .empty Environment.defaultLimit maskedBody
    let sender : Operand := .named "r1" "java.lang.String"
    (∃ s, maskedBody.statements[1]? = some s ∧ s.guard = some ⟨"r1 == null"⟩ ∧
        sender ∈ s.instruction.targets) ∧
      (∃ method, maskedBody.statements[2]? = some ⟨none, .invoke none method none [sender]⟩ ∧
        (CallSite.named method none [sender]).verdict = .unmodelled) ∧
      .smsSender ∈ (visit 1).environment.tagsOf sender ∧
      .smsSender ∉ (visit 2).environment.tagsOf sender ∧
      (visit 3).flows = [] := by
  intro visit sender
  refine ⟨⟨_, rfl, rfl, by decide⟩, ⟨_, rfl, by decide⟩, ?_, ?_, ?_⟩ <;> decide +kernel

theorem guarded_write_decides_sender :
    let visit := upTo Recognizer.standard .empty Environment.defaultLimit maskedBody
    let sender : Operand := .named "r1" "java.lang.String"
    (∀ t, t ∉ (visit 2).environment.tagsOf sender) ∧
      ((visit 2).environment.get? sender).bind (·.latest? (some ⟨"r1 != null"⟩)) =
        ((visit 1).environment.histories.get? sender).bind (·.latest? (some ⟨"r1 != null"⟩)) ∧
      ∃ shown, (visit 3).flows = (visit 2).flows ++ shown ∧
        ∀ t, ¬ ∃ f ∈ shown, f.argument = "r1" ∧ t ∈ f.tags := by
  intro visit sender
  have hs : maskedBody.statements[1]? =
      some ⟨some ⟨"r1 == null"⟩, .assign sender (.literal (.str "unknown"))⟩ := rfl
  have hkept : Untouched maskedBody.statements 1 2 sender := fun k _ h1 h2 => by omega
  obtain ⟨htags, hlookup, hflows⟩ := guarded_write_decides .empty Environment.defaultLimit
    hs rfl (by decide) rfl (by decide) hkept
  have hnothing : ∀ t, t ∉ Instruction.transfer (visit 1).environment
      (.assign sender (.literal (.str "unknown"))) := by
    intro t ht
    obtain ⟨o, ho, hl, _⟩ := Environment.mem_tagsAmong.1 ht
    rw [List.mem_singleton.1 ho] at hl
    cases hl
  obtain ⟨shown, hshown, hiff⟩ :=
    hflows none none _ none _ rfl (by decide) (List.mem_singleton_self sender)
  refine ⟨fun t ht => hnothing t ((htags t).1 ht), hlookup _ (by decide), shown, hshown, ?_⟩
  intro t hf
  rcases (hiff t).1 hf with ht | ⟨y, hy, hne, _⟩
  · exact hnothing t ht
  · exact hne (List.mem_singleton.1 hy)

end Visit

end Provenance
