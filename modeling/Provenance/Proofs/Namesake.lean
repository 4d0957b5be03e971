import Provenance.Proofs.Writes

set_option autoImplicit false

namespace Provenance

namespace Constant

theorem not_mem_natText (n : Nat) : '@' ∉ Decimal.natText n := by
  intro h
  have hdigit := Nat.isDigit_of_mem_toDigits (by decide) (by decide) h
  simp at hdigit

theorem not_mem_intText (n : Int) : '@' ∉ Decimal.intText n := by
  cases n with
  | ofNat n => exact not_mem_natText n
  | negSucc n => simpa [Decimal.intText] using not_mem_natText (n + 1)

theorem not_mem_positional {digits : List Char} (h : '@' ∉ digits) (point : Int) :
    '@' ∉ Decimal.positional digits point := by
  have htake : '@' ∉ digits.take point.toNat := fun hc => h (List.mem_of_mem_take hc)
  have hdrop : '@' ∉ digits.drop point.toNat := fun hc => h (List.mem_of_mem_drop hc)
  unfold Decimal.positional
  split
  · simp [h]
  · split
    · simp [h]
    · simp [htake, hdrop]

theorem not_mem_scientific {digits : List Char} (h : '@' ∉ digits) (point : Int) :
    '@' ∉ Decimal.scientific digits point := by
  cases digits with
  | nil => simp [Decimal.scientific]
  | cons d rest =>
    have hpoint := not_mem_intText (point - 1)
    simp only [List.mem_cons, not_or] at h
    simp only [Decimal.scientific]
    split <;> simp [h, hpoint]

theorem not_mem_finiteText (bits : UInt64) : '@' ∉ Double.finiteText bits := by
  unfold Double.finiteText
  cases hdecimal : Double.decimal bits with
  | mk digits point =>
    have hdigits : '@' ∉ (Double.decimal bits).1 := not_mem_natText _
    rw [hdecimal] at hdigits
    dsimp only
    cases Double.isPlain bits with
    | true => exact not_mem_positional hdigits point
    | false => exact not_mem_scientific hdigits point

theorem not_mem_doubleText (bits : UInt64) : '@' ∉ (Double.text bits).toList := by
  have hmagnitude : '@' ∉ Double.magnitudeText bits := by
    unfold Double.magnitudeText
    split
    · decide
    · split
      · decide
      · exact not_mem_finiteText bits
  unfold Double.text
  split
  · decide
  · split <;> simp [hmagnitude]

theorem text_ne_returnSlot (c : Constant) : c.text ≠ Operand.returnSlot.text := by
  have hmem : '@' ∈ Operand.returnSlot.text.toList := by decide
  have hhead : Operand.returnSlot.text.toList.head? = some '@' := by decide
  intro htext
  cases c with
  | char c => simp [← htext, text, Text.Quoted.quote, Text.Quoted.encode] at hhead
  | str s => simp [← htext, text, Text.Quoted.quote, Text.Quoted.encode] at hhead
  | double bits =>
    rw [← htext] at hmem
    exact not_mem_doubleText bits hmem
  | int n =>
    rw [← htext] at hmem
    exact not_mem_intText n.toInt (by simpa [text, render] using hmem)
  | falseLiteral => exact absurd htext (by decide)
  | trueLiteral => exact absurd htext (by decide)
  | null => exact absurd htext (by decide)

end Constant

def Body.WritesAt (body : Body) (k : Nat) (o : Operand) : Prop :=
  ∃ s, body.statements[k]? = some s ∧ o ∈ s.instruction.targets ∧ o.isLiteral = false

/-- Of all operands that print as the text, one of the first statements writes this one, and none
after it writes another. -/
structure Body.WritesLast (body : Body) (n : Nat) (text : String) (o : Operand) : Prop where
  text_eq : o.text = text
  written : ∃ k < n, body.WritesAt k o ∧
    ∀ j p, k < j → j < n → body.WritesAt j p → p.text ≠ text

/-- None of the first statements writes a variable that has the literal's printed form as its name.
-/
def Body.LacksNamesake (body : Body) (n : Nat) (c : Constant) : Prop :=
  ∀ k < n, ∀ type, ¬ body.WritesAt k (.named c.text type)

theorem Operand.named_of_text_eq {o : Operand} (hl : o.isLiteral = false) {c : Constant}
    (h : o.text = c.text) : ∃ type, o = .named c.text type := by
  cases o with
  | named name type => exact ⟨type, by rw [← h]; rfl⟩
  | literal d => cases hl
  | returnSlot => exact absurd h.symm c.text_ne_returnSlot

theorem Body.LacksNamesake.text_ne {body : Body} {n : Nat} {c : Constant}
    (h : body.LacksNamesake n c) {k : Nat} (hk : k < n) {o : Operand} (ho : body.WritesAt k o) :
    o.text ≠ c.text := by
  intro htext
  obtain ⟨s, hs, hmem, hl⟩ := ho
  obtain ⟨type, rfl⟩ := Operand.named_of_text_eq hl htext
  exact h k hk type ⟨s, hs, hmem, hl⟩

theorem Body.WritesLast.succ {body : Body} {n : Nat} {text : String} {o : Operand}
    (h : body.WritesLast n text o) (hn : ∀ p, body.WritesAt n p → p.text ≠ text) :
    body.WritesLast (n + 1) text o := by
  obtain ⟨htext, k, hk, hat, hlater⟩ := h
  refine ⟨htext, k, Nat.lt_succ_of_lt hk, hat, ?_⟩
  intro j p hkj hj hp
  rcases Nat.lt_succ_iff_lt_or_eq.1 hj with hj | rfl
  · exact hlater j p hkj hj hp
  · exact hn p hp

namespace Environment

theorem exists_resolve?_of_tagged {env : Environment} {o : Operand}
    (h : (env.tagsOf o).isEmpty = false) : ∃ values, env.resolve? o = some values := by
  cases hr : env.resolve? o with
  | none => simp [tagsOf, hr, TagSet.unions, TagSet.isEmpty] at h
  | some values => exact ⟨values, rfl⟩

end Environment

namespace Visit

open Environment

section

variable [Enumeration] (names : KnownName.Cache) (limit : Nat) (body : Body)

theorem byText_upTo_succ (n : Nat) (text : String) :
    (∃ o, body.WritesAt n o ∧ o.text = text ∧
      (upTo Recognizer.standard names limit body (n + 1)).environment.byText.get? text = some o) ∨
    (∀ o, body.WritesAt n o → o.text ≠ text) ∧
      (upTo Recognizer.standard names limit body (n + 1)).environment.byText.get? text =
        (upTo Recognizer.standard names limit body n).environment.byText.get? text := by
  cases hs : body.statements[n]? with
  | none =>
    rw [upTo_succ_of_none Recognizer.standard names limit hs]
    refine Or.inr ⟨?_, rfl⟩
    rintro o ⟨s, hat, _⟩
    simp [hs] at hat
  | some s =>
    rw [upTo_succ Recognizer.standard names limit hs, environment_step]
    have hindex := byText_writeAll (upTo Recognizer.standard names limit body n).environment s.guard
      (Effect.standard (upTo Recognizer.standard names limit body n).environment body.method
        s.instruction).writes text
    rw [Effect.targets_standard] at hindex
    rcases hindex with ⟨o, ho, hl, htext, hfound⟩ | ⟨hnone, hsame⟩
    · exact Or.inl ⟨o, ⟨s, hs, ho, hl⟩, htext, hfound⟩
    · refine Or.inr ⟨?_, hsame⟩
      rintro o ⟨s', hat, ho, hl⟩
      obtain rfl : s = s' := Option.some.inj (hs.symm.trans hat)
      exact hnone o ho hl

theorem byText_upTo (n : Nat) (text : String) :
    (∃ o, body.WritesLast n text o ∧
      (upTo Recognizer.standard names limit body n).environment.byText.get? text = some o) ∨
    (∀ k < n, ∀ o, body.WritesAt k o → o.text ≠ text) ∧
      (upTo Recognizer.standard names limit body n).environment.byText.get? text = none := by
  induction n with
  | zero => exact Or.inr ⟨by simp, rfl⟩
  | succ n ih =>
    rcases byText_upTo_succ names limit body n text with ⟨o, ho, htext, hfound⟩ | ⟨hnone, hsame⟩
    · refine Or.inl ⟨o, ⟨htext, n, Nat.lt_succ_self n, ho, ?_⟩, hfound⟩
      intro j p hnj hj
      omega
    · rw [hsame]
      rcases ih with ⟨o, hlast, hfound⟩ | ⟨hbefore, hempty⟩
      · exact Or.inl ⟨o, hlast.succ hnone, hfound⟩
      · refine Or.inr ⟨?_, hempty⟩
        intro k hk o ho
        rcases Nat.lt_succ_iff_lt_or_eq.1 hk with hk | rfl
        · exact hbefore k hk o ho
        · exact hnone o ho

theorem writesAt_of_resolve? {n : Nat} {o : Operand} {values : List SymbolicValue}
    (h : (upTo Recognizer.standard names limit body n).environment.resolve? o = some values) :
    ∃ k < n, ∃ p, body.WritesAt k p ∧ p.text = o.text := by
  rcases byText_upTo names limit body n o.text with ⟨p, ⟨htext, k, hk, hat, _⟩, _⟩ | ⟨_, hnone⟩
  · exact ⟨k, hk, p, hat, htext⟩
  · -- The index knows the texts of all operands with a history, so here there is neither.
    have hshape := wellFormed_upTo Recognizer.standard names limit body n
    have hown :
        (upTo Recognizer.standard names limit body n).environment.histories.get? o = none := by
      rw [← Option.not_isSome_iff_eq_none, Table.isSome_get?_iff]
      intro hkey
      have hindexed := (hshape.indexed o.text).2 ⟨o, hkey, rfl⟩
      rw [← Table.isSome_get?_iff, hnone] at hindexed
      cases hindexed
    simp [resolve?, get?, hown, hnone] at h

theorem writesAt_of_flow {n : Nat} {f : Flow}
    (h : f ∈ (upTo Recognizer.standard names limit body n).flows) :
    ∃ k < n, ∃ p, body.WritesAt k p ∧ p.text = f.argument := by
  induction n with
  | zero => simp [upTo, run, start] at h
  | succ n ih =>
    have hearlier : (∃ k < n, ∃ p, body.WritesAt k p ∧ p.text = f.argument) →
        ∃ k < n + 1, ∃ p, body.WritesAt k p ∧ p.text = f.argument := by
      rintro ⟨k, hk, hp⟩
      exact ⟨k, Nat.lt_succ_of_lt hk, hp⟩
    cases hs : body.statements[n]? with
    | none =>
      rw [upTo_succ_of_none Recognizer.standard names limit hs] at h
      exact hearlier (ih h)
    | some s =>
      rw [upTo_succ Recognizer.standard names limit hs, flows_step] at h
      rcases List.mem_append.1 h with h | h
      · exact hearlier (ih h)
      · obtain ⟨o, htagged, hargument, _⟩ := Effect.exists_operand_of_flow h
        obtain ⟨values, hvalues⟩ := exists_resolve?_of_tagged htagged
        obtain ⟨k, hk, p, hp, htext⟩ := writesAt_of_resolve? names limit body hvalues
        exact ⟨k, Nat.lt_succ_of_lt hk, p, hp, htext.trans hargument.symm⟩

theorem histories_literal (n : Nat) (c : Constant) :
    (upTo Recognizer.standard names limit body n).environment.histories.get? (.literal c) = none := by
  rw [← Option.not_isSome_iff_eq_none, Table.isSome_get?_iff]
  intro hkey
  have hshape := wellFormed_upTo Recognizer.standard names limit body n
  cases hshape.notLiteral _ hkey

theorem resolve?_literal_of_byText {n : Nat} {c : Constant} {o : Operand}
    (h : (upTo Recognizer.standard names limit body n).environment.byText.get? c.text = some o) :
    ∃ values,
      (upTo Recognizer.standard names limit body n).environment.resolve? o = some values ∧
      (upTo Recognizer.standard names limit body n).environment.resolve? (.literal c) =
        some values := by
  have hshape := wellFormed_upTo Recognizer.standard names limit body n
  obtain ⟨hkey, _⟩ := hshape.recorded _ (Table.mem_of_get? h)
  obtain ⟨history, hhistory⟩ := Option.isSome_iff_exists.1 (Table.isSome_get?_iff.2 hkey)
  obtain ⟨values, hlatest⟩ :=
    History.exists_latest? (hshape.written _ (Table.mem_of_get? hhistory))
  refine ⟨values, ?_, ?_⟩
  · rw [resolve?_of_history hhistory, hlatest]
  · rw [resolve?_by_text (histories_literal names limit body n c) h hhistory, hlatest]

end

/-- A literal is never written, and nothing is found for it unless a variable has its printed form
as its name. As long as no such variable is written, the literal has no values and no tags, no flow
shows its printed form, and it adds no tags to anything. From then on it has the values and the tags
of the one that was written last. -/
theorem literal_bare_or_namesake [Enumeration] (names : KnownName.Cache) (limit : Nat)
    (body : Body) (n : Nat) (c : Constant) :
    let visit := upTo Recognizer.standard names limit body n
    let env := visit.environment
    env.histories.get? (.literal c) = none ∧
    (body.LacksNamesake n c →
      env.resolve? (.literal c) = none ∧ env.tagsOf (.literal c) = .empty ∧
        (∀ f ∈ visit.flows, f.argument ≠ c.text) ∧
        ∀ values, Recognizer.propagate env (.literal c) values = values) ∧
    (¬ body.LacksNamesake n c →
      ∃ type, body.WritesLast n c.text (.named c.text type) ∧
        env.resolve? (.literal c) ≠ none ∧
        env.resolve? (.literal c) = env.resolve? (.named c.text type) ∧
        env.tagsOf (.literal c) = env.tagsOf (.named c.text type)) := by
  intro visit env
  refine ⟨histories_literal names limit body n c, ?_, ?_⟩
  · intro hlacks
    have hresolve : env.resolve? (.literal c) = none := by
      by_contra hsome
      obtain ⟨values, hvalues⟩ := Option.ne_none_iff_exists'.1 hsome
      obtain ⟨k, hk, p, hp, htext⟩ := writesAt_of_resolve? names limit body hvalues
      exact hlacks.text_ne hk hp htext
    have huntagged : env.tagsAt (.literal c) = ∅ := by
      rw [tagsAt_eq, hresolve]
      exact valueTags_nil
    refine ⟨hresolve, tagsOf_of_untagged huntagged, ?_, propagate_of_untagged huntagged⟩
    intro f hf hargument
    obtain ⟨k, hk, p, hp, htext⟩ := writesAt_of_flow names limit body hf
    exact hlacks.text_ne hk hp (htext.trans hargument)
  · intro hnamesake
    rcases byText_upTo names limit body n c.text with ⟨o, hlast, hindex⟩ | ⟨hnone, _⟩
    · obtain ⟨_, _, ⟨_, _, _, hl⟩, _⟩ := hlast.written
      obtain ⟨type, rfl⟩ := Operand.named_of_text_eq hl hlast.text_eq
      obtain ⟨values, hnamed, hliteral⟩ := resolve?_literal_of_byText names limit body hindex
      have hsame : env.resolve? (.literal c) = env.resolve? (.named c.text type) :=
        hliteral.trans hnamed.symm
      refine ⟨type, hlast, ?_, hsame, ?_⟩
      · rw [hliteral]
        simp
      · rw [tagsOf, tagsOf, hsame]
    · exact absurd (fun k hk type ht => hnone k hk _ ht rfl) hnamesake

def nullBody : Body where
  method := ⟨"com.example.Receiver", "onReceive", ["android.telephony.SmsMessage"], "void"⟩
  statements :=
    [⟨none, .invoke (some (.named "null" "java.lang.String"))
      ⟨"android.telephony.SmsMessage", "getOriginatingAddress", [], "java.lang.String"⟩
      (some (.named "r0" "android.telephony.SmsMessage")) []⟩,
     ⟨none, .invoke none ⟨"android.util.Log", "d", ["java.lang.String"], "int"⟩ none
      [.literal .null]⟩]

/-- A literal can be tainted: the call logs nothing but a literal, and a flow is shown for it. -/
theorem literal_tainted_by_namesake :
    let visit := upTo Recognizer.standard .empty Environment.defaultLimit nullBody
    (∃ method, nullBody.statements[1]? = some ⟨none, .invoke none method none [.literal .null]⟩) ∧
      ((visit 1).environment.resolve? (.literal .null)).isSome = true ∧
      .smsSender ∈ (visit 1).environment.tagsOf (.literal .null) ∧
      (visit 2).flows = [⟨nullBody.method.text, "<android.util.Log: int d(java.lang.String)>",
        "null", ["#sms/#sender"]⟩] := by
  intro visit
  refine ⟨⟨_, rfl⟩, ?_, ?_, ?_⟩ <;> decide +kernel

theorem literal_bare_or_namesake_null :
    let before := upTo Recognizer.standard .empty Environment.defaultLimit nullBody 0
    let after := upTo Recognizer.standard .empty Environment.defaultLimit nullBody 1
    nullBody.LacksNamesake 0 .null ∧ before.environment.tagsOf (.literal .null) = .empty ∧
      ¬ nullBody.LacksNamesake 1 .null ∧
      ∃ type, nullBody.WritesLast 1 "null" (.named "null" type) ∧
        after.environment.tagsOf (.literal .null) = after.environment.tagsOf (.named "null" type) := by
  intro before after
  have hlacks : nullBody.LacksNamesake 0 .null := fun k hk => absurd hk (Nat.not_lt_zero k)
  have hnamesake : ¬ nullBody.LacksNamesake 1 .null :=
    fun h => h 0 (by decide) "java.lang.String" ⟨_, rfl, by decide, rfl⟩
  obtain ⟨_, hbare, _⟩ := literal_bare_or_namesake .empty Environment.defaultLimit nullBody 0 .null
  obtain ⟨_, _, hnamed⟩ := literal_bare_or_namesake .empty Environment.defaultLimit nullBody 1 .null
  obtain ⟨type, hlast, _, _, htags⟩ := hnamed hnamesake
  exact ⟨hlacks, (hbare hlacks).2.1, hnamesake, type, hlast, htags⟩

end Visit

end Provenance
