import Provenance.Proofs.Taint

set_option autoImplicit false

namespace Provenance

def Untouched (statements : List Statement) (i j : Nat) (x : Operand) : Prop :=
  ∀ k s, i < k → k < j → statements[k]? = some s → x ∉ s.instruction.targets

/-- A tag is on its way: it was read from a text message, handed on from statement to statement, and
the statement at the given position wrote the given operand. -/
inductive Route (statements : List Statement) (t : Tag) : Nat → Operand → Prop where
  | source {i : Nat} {x : Operand} {guard : Option Condition} {method : Method}
      {receiver : Option Operand} {arguments : List Operand}
      (at_i : statements[i]? = some ⟨guard, .invoke (some x) method receiver arguments⟩)
      (reads : method.knownName.sourceTag? = some t) (target : x.isLiteral = false) :
      Route statements t i x
  | next {i j : Nat} {x y : Operand} {s : Statement} (before : Route statements t i x)
      (later : i < j) (kept : Untouched statements i j x) (at_j : statements[j]? = some s)
      (read : x ∈ s.instruction.carriers) (written : y ∈ s.instruction.targets)
      (target : y.isLiteral = false) : Route statements t j y

theorem Route.isLiteral_eq_false {statements : List Statement} {t : Tag} {i : Nat} {x : Operand}
    (route : Route statements t i x) : x.isLiteral = false := by
  cases route with
  | source at_i reads target => exact target
  | next before later kept at_j read written target => exact target

theorem Untouched.mono {statements : List Statement} {i j k : Nat} {x : Operand}
    (h : Untouched statements i j x) (hkj : k ≤ j) : Untouched statements i k x :=
  fun m s him hmk => h m s him (Nat.lt_of_lt_of_le hmk hkj)

theorem Effect.mem_flows_of_unmodelled [Enumeration] (env : Environment) (caller : Method)
    {method : Method} {receiver : Option Operand} {arguments : List Operand}
    (hv : (CallSite.named method receiver arguments).verdict = .unmodelled)
    (result : Option Operand) {x : Operand} (hx : x ∈ arguments) {t : Tag}
    (ht : t ∈ env.tagsOf x) :
    ⟨caller.text, method.text, x.text, (env.tagsOf x).toList⟩ ∈
      (standard env caller (.invoke result method receiver arguments)).flows := by
  have hsome : (env.tagsOf x).isEmpty = false := by
    have hne : (env.tagsOf x).toList ≠ [] := List.ne_nil_of_mem (TagSet.mem_toList.2 ht)
    simpa [TagSet.isEmpty] using hne
  rw [flows_standard, if_pos hv]
  exact List.mem_filterMap.2 ⟨x, hx, by simp [hsome, CallSite.named]⟩

namespace Visit

open Environment

theorem histories_step_of_unwritten [Enumeration] (caller : Method) (v : Visit) {s : Statement}
    {x : Operand} (hx : x ∉ s.instruction.targets) :
    (v.step Recognizer.standard caller s).environment.histories.get? x =
      v.environment.histories.get? x := by
  rw [environment_step]
  apply histories_writeAll_of_unwritten
  rintro w hw _ rfl
  apply hx
  rw [← Effect.targets_standard v.environment caller]
  exact List.mem_map.2 ⟨w, hw, rfl⟩

theorem holds_step_of_written [Enumeration] (caller : Method) (v : Visit) {s : Statement} {t : Tag}
    {y : Operand} (hy : y ∈ s.instruction.targets) (hl : y.isLiteral = false)
    (hw : ∀ w ∈ (Effect.standard v.environment caller s.instruction).writes, Tainted t w.2) :
    (v.step Recognizer.standard caller s).environment.Holds t y := by
  rw [← Effect.targets_standard v.environment caller] at hy
  obtain ⟨values, history, hmem, hget, hlatest⟩ :=
    histories_writeAll_of_written v.environment s.guard hl hy
  rw [environment_step]
  exact ⟨history, _, hget, hlatest, (hw _ hmem).collapse v.environment.limit y⟩

section

variable [Enumeration] (names : KnownName.Cache) (limit : Nat) {body : Body} {t : Tag}
  {i j : Nat} {x : Operand}

theorem histories_upTo_of_untouched (hij : i < j) (kept : Untouched body.statements i j x) :
    (upTo Recognizer.standard names limit body j).environment.histories.get? x =
      (upTo Recognizer.standard names limit body (i + 1)).environment.histories.get? x := by
  induction j, hij using Nat.le_induction with
  | base => rfl
  | succ j hij ih =>
    have hbefore := ih (kept.mono (Nat.le_succ j))
    cases hs : body.statements[j]? with
    | none => rwa [upTo_succ_of_none Recognizer.standard names limit hs]
    | some s =>
      have hx := kept j s hij (Nat.lt_succ_self j) hs
      rw [upTo_succ Recognizer.standard names limit hs,
        histories_step_of_unwritten body.method _ hx,
        hbefore]

theorem holds_upTo_of_untouched
    (h : (upTo Recognizer.standard names limit body (i + 1)).environment.Holds t x)
    (hij : i < j) (kept : Untouched body.statements i j x) :
    (upTo Recognizer.standard names limit body j).environment.Holds t x := by
  obtain ⟨history, values, hget, hlatest, htainted⟩ := h
  have hsame := histories_upTo_of_untouched names limit hij kept
  exact ⟨history, values, hsame.trans hget, hlatest, htainted⟩

theorem holds_of_route (route : Route body.statements t i x) :
    (upTo Recognizer.standard names limit body (i + 1)).environment.Holds t x := by
  induction route with
  | @source i x guard method receiver arguments at_i reads target =>
    rw [upTo_succ Recognizer.standard names limit at_i]
    apply holds_step_of_written body.method _ _ target
    · exact Effect.tainted_source _ body.method reads (some x) receiver arguments
    · simp [Instruction.targets, CallSite.targets, CallSite.verdict_of_source reads]
  | @next i j x y s before later kept at_j read written target ih =>
    have hbefore := holds_upTo_of_untouched names limit ih later kept
    rw [upTo_succ Recognizer.standard names limit at_j]
    apply holds_step_of_written body.method _ written target
    exact Effect.tainted_standard hbefore before.isLiteral_eq_false body.method read

theorem flows_upTo_mono {n : Nat} (hjn : j ≤ n) {f : Flow}
    (hf : f ∈ (upTo Recognizer.standard names limit body j).flows) :
    f ∈ (upTo Recognizer.standard names limit body n).flows := by
  induction n, hjn using Nat.le_induction with
  | base => exact hf
  | succ n hjn ih =>
    cases hs : body.statements[n]? with
    | none => rwa [upTo_succ_of_none Recognizer.standard names limit hs]
    | some s =>
      rw [upTo_succ Recognizer.standard names limit hs]
      exact List.mem_append_left _ ih

end

/-- No tag is lost on a route. As long as what the route reached is not written again, it has the
tag, and a call that nobody models and that takes it as an argument shows the flow. -/
theorem flow_of_route [Enumeration] (names : KnownName.Cache) (limit : Nat) {body : Body} {t : Tag}
    {i j : Nat} {x : Operand} (route : Route body.statements t i x) (hij : i < j)
    (kept : Untouched body.statements i j x) :
    let env := (upTo Recognizer.standard names limit body j).environment
    t ∈ env.tagsOf x ∧
      ∀ guard result method receiver arguments,
        body.statements[j]? = some ⟨guard, .invoke result method receiver arguments⟩ →
        (CallSite.named method receiver arguments).verdict = .unmodelled → x ∈ arguments →
        ∀ n, j < n → ⟨body.method.text, method.text, x.text, (env.tagsOf x).toList⟩ ∈
          (upTo Recognizer.standard names limit body n).flows := by
  intro env
  have hholds : env.Holds t x :=
    holds_upTo_of_untouched names limit (holds_of_route names limit route) hij kept
  have htag : t ∈ env.tagsOf x := hholds.mem_tagsAt
  refine ⟨htag, ?_⟩
  intro guard result method receiver arguments hs hv hx n hjn
  apply flows_upTo_mono names limit hjn
  rw [upTo_succ Recognizer.standard names limit hs]
  simp only [step, perform, KnownName.Cache.lookup_fst]
  apply List.mem_append_right
  exact Effect.mem_flows_of_unmodelled env body.method hv result hx htag

def senderBody : Body where
  method := ⟨"com.example.Receiver", "onReceive", ["android.telephony.SmsMessage"], "void"⟩
  statements :=
    [⟨none, .identity (.named "r0" "android.telephony.SmsMessage") 0⟩,
     ⟨none, .invoke (some (.named "r1" "java.lang.String"))
      ⟨"android.telephony.SmsMessage", "getOriginatingAddress", [], "java.lang.String"⟩
      (some (.named "r0" "android.telephony.SmsMessage")) []⟩,
     ⟨none, .invoke (some (.named "r2" "java.lang.String"))
      ⟨"java.lang.String", "toLowerCase", [], "java.lang.String"⟩
      (some (.named "r1" "java.lang.String")) []⟩,
     ⟨some ⟨"r2 != null"⟩, .invoke (some (.named "r3" "java.lang.String"))
      ⟨"java.lang.String", "substring", ["int", "int"], "java.lang.String"⟩
      (some (.named "r2" "java.lang.String")) [.literal (.int 0), .literal (.int 3)]⟩,
     ⟨none, .create (.named "r2" "java.lang.String") "java.lang.String"⟩,
     ⟨none, .invoke none ⟨"android.util.Log", "d", ["java.lang.String"], "int"⟩ none
      [.named "r3" "java.lang.String"]⟩]

theorem route_senderBody :
    Route senderBody.statements .smsSender 3 (.named "r3" "java.lang.String") := by
  have hsender : Route senderBody.statements .smsSender 1 (.named "r1" "java.lang.String") :=
    .source rfl (by decide) rfl
  have hlower : Route senderBody.statements .smsSender 2 (.named "r2" "java.lang.String") :=
    .next hsender (by decide) (fun k _ h1 h2 => by omega) rfl (by decide) (by decide) rfl
  exact .next hlower (by decide) (fun k _ h1 h2 => by omega) rfl (by decide) (by decide) rfl

theorem flow_of_logged_sender :
    ⟨senderBody.method.text, "<android.util.Log: int d(java.lang.String)>", "r3",
      ["#sms/#sender"]⟩ ∈ (upTo Recognizer.standard .empty 0 senderBody 6).flows := by
  have hkept : Untouched senderBody.statements 3 5 (.named "r3" "java.lang.String") := by
    intro k s h1 h2 hs
    obtain rfl : k = 4 := by omega
    obtain rfl : _ = s := Option.some.inj hs
    decide
  have hflow := (flow_of_route .empty 0 route_senderBody (by decide) hkept).2 none none _ none _
    rfl (by decide) (by simp) 6 (by decide)
  have htags : ((upTo Recognizer.standard .empty 0 senderBody 5).environment.tagsOf
      (.named "r3" "java.lang.String")).toList = ["#sms/#sender"] := by decide +kernel
  rw [htags] at hflow
  exact hflow

end Visit

end Provenance
