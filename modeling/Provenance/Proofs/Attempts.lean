import Provenance.Proofs.Arguments

set_option autoImplicit false

namespace Provenance

namespace Settings

def merge (first later : Settings) : Settings where
  singleMethod := later.singleMethod <|> first.singleMethod
  timeLimit := later.timeLimit <|> first.timeLimit
  maxValues := later.maxValues <|> first.maxValues
  output := later.output <|> first.output

def Holds (s : Settings) (value : String) : OptionName → Prop
  | .singleMethod => s.singleMethod = some value
  | .timeLimit => ∃ n, number? value = some n ∧ s.timeLimit = some n
  | .maxValues => ∃ n, number? value = some n ∧ s.maxValues = some n
  | .output => ∃ f, choice? value = some f ∧ s.output = some f

section

variable (first later last : Settings)

theorem merge_empty : first.merge {} = first := rfl

theorem merge_assoc : (first.merge later).merge last = first.merge (later.merge last) := by
  simp [merge, Option.orElse_eq_or, Option.or_assoc]

theorem isGiven_merge (option : OptionName) :
    (first.merge later).isGiven option = (later.isGiven option || first.isGiven option) := by
  cases option <;> simp [merge, isGiven]

end

variable {first later s one : Settings} {option : OptionName} {value : String}

theorem isGiven_of_holds (h : s.Holds value option) : s.isGiven option = true := by
  cases option <;> simp only [Holds] at h <;> simp [isGiven] <;> grind

theorem Holds.merge_right (h : later.Holds value option) :
    (first.merge later).Holds value option := by
  cases option <;> simp only [Holds, merge] at h ⊢ <;> grind

theorem Holds.merge_left (h : first.Holds value option) (hlater : later.isGiven option = false) :
    (first.merge later).Holds value option := by
  cases option <;> simp_all [Holds, merge, isGiven]

theorem assign_eq (s : Settings) (option : OptionName) (value : String) :
    s.assign option value =
      if s.isGiven option then .error (.givenTwice option)
      else (({} : Settings).assign option value).map s.merge := by
  unfold assign
  split
  · rfl
  · cases option <;> simp only [isGiven, Option.isSome_none, Bool.false_eq_true, if_false]
    · rfl
    all_goals split <;> rfl

theorem assign_single (h : ({} : Settings).assign option value = .ok one) :
    one.Holds value option ∧ ∀ other, one.isGiven other = true → other = option := by
  cases option with
  | singleMethod =>
    cases h
    exact ⟨rfl, fun other => by cases other <;> simp [isGiven]⟩
  | timeLimit =>
    cases hn : number? value with
    | none => simp [assign, isGiven, hn] at h
    | some n =>
      simp only [assign, isGiven, hn, Option.isSome_none, Bool.false_eq_true, if_false] at h
      cases h
      exact ⟨⟨n, hn, rfl⟩, fun other => by cases other <;> simp [isGiven]⟩
  | maxValues =>
    cases hn : number? value with
    | none => simp [assign, isGiven, hn] at h
    | some n =>
      simp only [assign, isGiven, hn, Option.isSome_none, Bool.false_eq_true, if_false] at h
      cases h
      exact ⟨⟨n, hn, rfl⟩, fun other => by cases other <;> simp [isGiven]⟩
  | output =>
    cases hf : choice? value with
    | none => simp [assign, isGiven, hf] at h
    | some f =>
      simp only [assign, isGiven, hf, Option.isSome_none, Bool.false_eq_true, if_false] at h
      cases h
      exact ⟨⟨f, hf, rfl⟩, fun other => by cases other <;> simp [isGiven]⟩

theorem assign_cases (h : s.assign option value = .ok later) :
    s.isGiven option = false ∧
      ∃ one, ({} : Settings).assign option value = .ok one ∧ later = s.merge one := by
  rw [assign_eq] at h
  split at h
  · cases h
  · rename_i hnew
    cases hone : ({} : Settings).assign option value with
    | error e =>
      rw [hone] at h
      cases h
    | ok one =>
      rw [hone] at h
      cases h
      exact ⟨by simpa using hnew, one, rfl, rfl⟩

end Settings

namespace Options

theorem apply_merge (o : Options) (first later : Settings) :
    (o.apply first).apply later = o.apply (first.merge later) := by
  simp only [apply, Settings.merge, Options.mk.injEq]
  refine ⟨?_, ?_, ?_, ?_⟩
  · cases later.singleMethod <;> rfl
  · cases later.timeLimit <;> rfl
  · cases later.maxValues <;> rfl
  · cases later.output <;> rfl

def Holds (o : Options) (value : String) : OptionName → Prop
  | .singleMethod => o.singleMethod = some value
  | .timeLimit => Settings.number? value = some o.timeLimit
  | .maxValues => Settings.number? value = some o.maxValues
  | .output => Settings.choice? value = some o.output

theorem holds_apply (o : Options) {s : Settings} {value : String} {option : OptionName}
    (h : s.Holds value option) : (o.apply s).Holds value option := by
  cases option <;> simp only [Settings.Holds, Holds, apply] at h ⊢
  · simp [h]
  all_goals
    obtain ⟨n, hn, hs⟩ := h
    simp [hn, hs]

end Options

def Scan.extend (base s : Scan) : Scan :=
  ⟨base.settings.merge s.settings, none, base.programs ++ s.programs⟩

namespace Item

variable {s next : Scan} {item : Item} {items : List Item} {option : OptionName} {value : String}

theorem perform_setting_cases (h : perform s (setting option value) = .ok next) :
    s.settings.isGiven option = false ∧
      ∃ one, ({} : Settings).assign option value = .ok one ∧
        next = { s with settings := s.settings.merge one } := by
  cases hassign : s.settings.assign option value with
  | error e => simp [perform, hassign] at h
  | ok settings =>
    obtain ⟨hnew, one, hone, rfl⟩ := Settings.assign_cases hassign
    refine ⟨hnew, one, hone, ?_⟩
    simpa [perform, hassign] using h.symm

theorem waiting_perform (h : perform s item = .ok next) : next.waiting = s.waiting := by
  cases item with
  | program path =>
    cases h
    rfl
  | setting option value =>
    obtain ⟨_, one, _, rfl⟩ := perform_setting_cases h
    rfl

theorem holds_perform (h : perform s item = .ok next)
    (hvalue : item = setting option value ∨ s.settings.Holds value option) :
    next.settings.Holds value option := by
  cases item with
  | program path =>
    cases h
    exact hvalue.resolve_left (by simp)
  | setting other text =>
    obtain ⟨hnew, one, hone, rfl⟩ := perform_setting_cases h
    obtain ⟨hheld, honly⟩ := Settings.assign_single hone
    rcases hvalue with hsame | hbefore
    · cases hsame
      exact hheld.merge_right
    · refine hbefore.merge_left ?_
      cases hgiven : one.isGiven option with
      | false => rfl
      | true =>
        -- The option would have been given before and now again.
        rw [← honly option hgiven, Settings.isGiven_of_holds hbefore] at hnew
        cases hnew

theorem isGiven_perform (h : perform s item = .ok next)
    (hgiven : next.settings.isGiven option = true) :
    s.settings.isGiven option = true ∨ ∃ value, item = setting option value := by
  cases item with
  | program path =>
    cases h
    exact Or.inl hgiven
  | setting other text =>
    obtain ⟨_, one, hone, rfl⟩ := perform_setting_cases h
    rw [Settings.isGiven_merge, Bool.or_eq_true] at hgiven
    rcases hgiven with hone' | hbefore
    · rw [(Settings.assign_single hone).2 option hone']
      exact Or.inr ⟨text, rfl⟩
    · exact Or.inl hbefore

def again? (given : Settings) : Item → Option OptionName
  | setting option _ => if given.isGiven option then some option else none
  | program _ => none

theorem again?_eq_some_iff {given : Settings} :
    item.again? given = some option ↔
      ∃ value, item = setting option value ∧ given.isGiven option = true := by
  constructor
  · intro h
    cases item with
    | program path => cases h
    | setting other value =>
      simp only [again?] at h
      split at h
      · rename_i hgiven
        cases h
        exact ⟨value, rfl, hgiven⟩
      · cases h
  · rintro ⟨value, rfl, hgiven⟩
    simp [again?, hgiven]

theorem perform_extend (base : Scan) (h : perform s item = .ok next) :
    perform (base.extend s) item =
      (item.again? base.settings).elim (.ok (base.extend next)) fun option =>
        .error (.givenTwice option) := by
  cases item with
  | program path =>
    cases h
    simp [perform, again?, Scan.extend]
  | setting option value =>
    obtain ⟨hnew, one, hone, rfl⟩ := perform_setting_cases h
    simp only [perform, again?, Scan.extend, Settings.assign_eq (base.settings.merge s.settings),
      Settings.isGiven_merge, hnew, Bool.false_or, hone]
    cases base.settings.isGiven option with
    | true => rfl
    | false =>
      simp only [Bool.false_eq_true, if_false, ← Settings.merge_assoc]
      rfl

theorem exists_perform_of_cons {last : Scan}
    (h : (item :: items).foldlM perform s = .ok last) :
    ∃ next, perform s item = .ok next ∧ items.foldlM perform next = .ok last := by
  rw [List.foldlM_cons] at h
  cases hstep : perform s item with
  | error e =>
    rw [hstep] at h
    cases h
  | ok next =>
    rw [hstep] at h
    exact ⟨next, rfl, h⟩

section

variable {last : Scan} (h : items.foldlM perform s = .ok last)

include h

theorem waiting_foldlM : last.waiting = s.waiting := by
  induction items generalizing s with
  | nil =>
    cases h
    rfl
  | cons item items ih =>
    obtain ⟨next, hstep, hrest⟩ := exists_perform_of_cons h
    rw [ih hrest, waiting_perform hstep]

theorem holds_foldlM (hvalue : setting option value ∈ items ∨ s.settings.Holds value option) :
    last.settings.Holds value option := by
  induction items generalizing s with
  | nil =>
    cases h
    exact hvalue.resolve_left (by simp)
  | cons item items ih =>
    obtain ⟨next, hstep, hrest⟩ := exists_perform_of_cons h
    apply ih hrest
    rcases hvalue with hmem | hbefore
    · rcases List.mem_cons.1 hmem with rfl | hlater
      · exact Or.inr (holds_perform hstep (Or.inl rfl))
      · exact Or.inl hlater
    · exact Or.inr (holds_perform hstep (Or.inr hbefore))

theorem isGiven_foldlM (hgiven : last.settings.isGiven option = true) :
    s.settings.isGiven option = true ∨ ∃ value, setting option value ∈ items := by
  induction items generalizing s with
  | nil =>
    cases h
    exact Or.inl hgiven
  | cons item items ih =>
    obtain ⟨next, hstep, hrest⟩ := exists_perform_of_cons h
    rcases ih hrest with hnext | ⟨value, hmem⟩
    · rcases isGiven_perform hstep hnext with hbefore | ⟨value, rfl⟩
      · exact Or.inl hbefore
      · exact Or.inr ⟨value, by simp⟩
    · exact Or.inr ⟨value, by simp [hmem]⟩

theorem isGiven_iff_of_new (hnew : s.settings.isGiven option = false) :
    last.settings.isGiven option = true ↔ ∃ value, setting option value ∈ items := by
  constructor
  · intro hgiven
    exact (isGiven_foldlM h hgiven).resolve_left (by simp [hnew])
  · intro ⟨value, hmem⟩
    exact Settings.isGiven_of_holds (holds_foldlM h (Or.inl hmem))

/-- After another scan all is done as before, up to the first option that is given again. -/
theorem foldlM_extend (base : Scan) :
    items.foldlM perform (base.extend s) =
      (items.findSome? (again? base.settings)).elim (.ok (base.extend last)) fun option =>
        .error (.givenTwice option) := by
  induction items generalizing s with
  | nil =>
    cases h
    rfl
  | cons item items ih =>
    obtain ⟨next, hstep, hrest⟩ := exists_perform_of_cons h
    rw [List.foldlM_cons, perform_extend base hstep, List.findSome?_cons]
    cases item.again? base.settings with
    | some option => rfl
    | none => exact ih hrest

end

end Item

def OptionName.GivenIn (option : OptionName) (value : String) (arguments : List String) : Prop :=
  ∃ items, Item.read? arguments = some items ∧ Item.setting option value ∈ items

namespace Options

theorem parse_of_run {arguments : List String} {s : Scan} (h : Scan.run {} arguments = .ok s)
    (o : Options) : o.parse arguments = (o.apply s.settings, .ok s.programs) := by
  simp [parse, h]

theorem parse_of_run_error {arguments : List String} {e : OptionError}
    (h : Scan.run {} arguments = .error e) (o : Options) : o.parse arguments = (o, .error e) := by
  simp [parse, h]

theorem exists_of_parse {o : Options} {arguments programs : List String}
    (h : (o.parse arguments).2 = .ok programs) :
    ∃ items s, Item.read? arguments = some items ∧ items.foldlM Item.perform {} = .ok s ∧
      s.programs = programs ∧ ∀ o : Options, (o.parse arguments).1 = o.apply s.settings := by
  cases hrun : Scan.run {} arguments with
  | error e =>
    rw [parse_of_run_error hrun] at h
    cases h
  | ok s =>
    rw [parse_of_run hrun] at h
    cases hread : Item.read? arguments with
    | none =>
      obtain ⟨e, he⟩ := Scan.run_of_read_none hread (s := {}) rfl
      rw [hrun] at he
      cases he
    | some items =>
      refine ⟨items, s, rfl, ?_, Except.ok.inj h, fun o => by rw [parse_of_run hrun]⟩
      rw [← hrun, Scan.run_of_read hread rfl]

theorem parse_append {a b : List String} {x y : List Item} {s t : Scan}
    (hx : Item.read? a = some x) (hs : x.foldlM Item.perform {} = .ok s) (hseparator : "--" ∉ a)
    (hy : Item.read? b = some y) (ht : y.foldlM Item.perform {} = .ok t) (o : Options) :
    o.parse (a ++ b) =
      (y.findSome? (Item.again? s.settings)).elim
        ((o.apply s.settings).apply t.settings, .ok (s.programs ++ t.programs)) fun option =>
        (o, .error (.givenTwice option)) := by
  have hread : Item.read? (a ++ b) = some (x ++ y) := by
    rw [Item.read?_append hx hseparator, hy, Option.map_some]
  have hstart : s.extend {} = s := by
    obtain ⟨settings, waiting, programs⟩ := s
    obtain rfl : waiting = none := Item.waiting_foldlM hs
    simp [Scan.extend, Settings.merge_empty]
  have hrun : Scan.run {} (a ++ b) = y.foldlM Item.perform (s.extend {}) := by
    rw [Scan.run_of_read hread rfl, List.foldlM_append, hs, hstart]
    rfl
  rw [Item.foldlM_extend ht] at hrun
  cases hagain : y.findSome? (Item.again? s.settings) with
  | none =>
    rw [hagain] at hrun
    rw [parse_of_run hrun, Option.elim_none, apply_merge]
    rfl
  | some option =>
    rw [hagain] at hrun
    rw [parse_of_run_error hrun, Option.elim_some]

theorem isGiven_iff {x : List Item} {s : Scan} (h : x.foldlM Item.perform {} = .ok s)
    {option : OptionName} :
    s.settings.isGiven option = true ↔ ∃ value, Item.setting option value ∈ x :=
  Item.isGiven_iff_of_new h (by cases option <;> rfl)

/-- An attempt that fails changes nothing and fails whatever the options are. Two attempts that
succeed, the first one without ending the options, do what the attempt on both lists does if no
option is given in both. If one is, the second value counts, while the attempt on both lists is
refused for such an option and changes nothing. -/
theorem attempts_compose (o : Options) (a b : List String) :
    (∀ e, (o.parse a).2 = .error e → ∀ o' : Options, o'.parse a = (o', .error e)) ∧
    ∀ p q, (o.parse a).2 = .ok p → "--" ∉ a → ((o.parse a).1.parse b).2 = .ok q →
      ((∀ (option : OptionName) (v w : String), option.GivenIn v a → ¬ option.GivenIn w b) →
        o.parse (a ++ b) = (((o.parse a).1.parse b).1, .ok (p ++ q))) ∧
      ∀ (option : OptionName) (v w : String), option.GivenIn v a → option.GivenIn w b →
        ((o.parse a).1.parse b).1.Holds w option ∧
        ∃ (twice : OptionName) (v' w' : String), twice.GivenIn v' a ∧ twice.GivenIn w' b ∧
          o.parse (a ++ b) = (o, .error (.givenTwice twice)) := by
  constructor
  · intro e he o'
    cases hrun : Scan.run {} a with
    | ok s =>
      rw [parse_of_run hrun] at he
      cases he
    | error e' =>
      rw [parse_of_run_error hrun] at he
      cases he
      rw [parse_of_run_error hrun]
  · intro p q hp hseparator hq
    obtain ⟨x, s, hx, hs, rfl, ha⟩ := exists_of_parse hp
    obtain ⟨y, t, hy, ht, rfl, hb⟩ := exists_of_parse hq
    have happend := parse_append hx hs hseparator hy ht o
    constructor
    · intro hdisjoint
      have hnone : y.findSome? (Item.again? s.settings) = none := by
        apply List.findSome?_eq_none_iff.2
        intro item hitem
        cases hagain : item.again? s.settings with
        | none => rfl
        | some option =>
          obtain ⟨w, rfl, hgiven⟩ := Item.again?_eq_some_iff.1 hagain
          obtain ⟨v, hv⟩ := (isGiven_iff hs).1 hgiven
          exact absurd ⟨y, hy, hitem⟩ (hdisjoint option v w ⟨x, hx, hv⟩)
      rw [happend, hnone, Option.elim_none, hb, ha]
    · rintro option v w ⟨x', hx', hv⟩ ⟨y', hy', hw⟩
      obtain rfl : x = x' := Option.some.inj (hx.symm.trans hx')
      obtain rfl : y = y' := Option.some.inj (hy.symm.trans hy')
      constructor
      · rw [hb]
        exact holds_apply _ (Item.holds_foldlM ht (Or.inl hw))
      · have hagain : (Item.setting option w).again? s.settings = some option :=
          Item.again?_eq_some_iff.2 ⟨w, rfl, (isGiven_iff hs).2 ⟨v, hv⟩⟩
        obtain ⟨twice, hfirst⟩ : ∃ twice, y.findSome? (Item.again? s.settings) = some twice := by
          apply Option.isSome_iff_exists.1
          exact List.findSome?_isSome_iff.2 ⟨_, hw, by simp [hagain]⟩
        obtain ⟨item, hitem, htwice⟩ := List.exists_of_findSome?_eq_some hfirst
        obtain ⟨w', rfl, hgiven⟩ := Item.again?_eq_some_iff.1 htwice
        obtain ⟨v', hv'⟩ := (isGiven_iff hs).1 hgiven
        refine ⟨twice, v', w', ⟨x, hx, hv'⟩, ⟨y, hy, hitem⟩, ?_⟩
        rw [happend, hfirst, Option.elim_some]

/-- A first list sets the output. A second one may set another option and name an option as a
program, but setting the output again is only possible in an attempt of its own. -/
theorem attempts_compose_output :
    (∀ o : Options, o.parse ["--output"] = (o, .error (.missingValue .output))) ∧
    (({} : Options).parse ["--output=json", "p"]).2 = .ok ["p"] ∧
    ({} : Options).parse
        (["--output=json", "p"] ++ ["-", "--max_values_per_entry", "+7", "--", "--output"]) =
      ({ maxValues := 7, output := .json }, .ok ["p", "-", "--output"]) ∧
    ((({} : Options).parse ["--output=json", "p"]).1.parse ["--output", "text"]).1.Holds
      "text" .output ∧
    ∃ twice, ({} : Options).parse (["--output=json", "p"] ++ ["--output", "text"]) =
      ({}, .error (.givenTwice twice)) := by
  have hread : Item.read? ["--output=json", "p"] =
      some [.setting .output "json", .program "p"] := rfl
  have hother : Item.read? ["-", "--max_values_per_entry", "+7", "--", "--output"] =
      some [.program "-", .setting .maxValues "+7", .program "--output"] := rfl
  have hagain : Item.read? ["--output", "text"] = some [.setting .output "text"] := rfl
  obtain ⟨hfails, _⟩ := attempts_compose {} ["--output"] []
  obtain ⟨_, hdisjoint⟩ := attempts_compose {} ["--output=json", "p"]
    ["-", "--max_values_per_entry", "+7", "--", "--output"]
  obtain ⟨_, hboth⟩ := attempts_compose {} ["--output=json", "p"] ["--output", "text"]
  refine ⟨hfails _ rfl, rfl, ?_, ?_⟩
  · refine ((hdisjoint ["p"] ["-", "--output"] rfl (by decide) rfl).1 ?_).trans rfl
    rintro option v w ⟨x, hx, hv⟩ ⟨y, hy, hw⟩
    rw [hread] at hx
    rw [hother] at hy
    cases hx
    cases hy
    simp only [List.mem_cons, Item.setting.injEq, reduceCtorEq, List.not_mem_nil, or_false,
      false_or] at hv hw
    rw [hv.1] at hw
    cases hw.1
  · obtain ⟨hvalue, twice, _, _, _, _, hrefused⟩ := (hboth ["p"] [] rfl (by decide) rfl).2 .output
      "json" "text" ⟨_, hread, by simp⟩ ⟨_, hagain, by simp⟩
    exact ⟨hvalue, twice, hrefused⟩

end Options

end Provenance
