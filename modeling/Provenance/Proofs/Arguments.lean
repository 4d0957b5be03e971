import Provenance.Options

/-!
What arguments ask for. This can be told before any option is set: a list of arguments is read into
settings and programs, and scanning the list carries these out in order. Lists in a row ask for
what the first one asks for and then for what the second one does.
-/

set_option autoImplicit false

namespace Provenance

inductive Item where
  | setting (option : OptionName) (value : String)
  | program (path : String)
  deriving DecidableEq

namespace Item

/-- What a list of arguments asks for, in order, unless the list is malformed whatever the values of
its options are. -/
def read? : List String → Option (List Item)
  | [] => some []
  | argument :: rest =>
    match Argument.ofText argument with
    | .separator => some (rest.map program)
    | .plain => (read? rest).map (program argument :: ·)
    | .short _ => none
    | .long name (some value) =>
      (OptionName.ofText? name).bind fun option => (read? rest).map (setting option value :: ·)
    | .long name none =>
      match rest with
      | [] => none
      | value :: rest =>
        match Argument.ofText value with
        | .plain =>
          (OptionName.ofText? name).bind fun option => (read? rest).map (setting option value :: ·)
        | _ => none

def perform (s : Scan) : Item → Except OptionError Scan
  | setting option value =>
    match s.settings.assign option value with
    | .ok settings => .ok { s with settings := settings }
    | .error e => .error e
  | program path => .ok { s with programs := s.programs ++ [path] }

end Item

namespace Scan

theorem settle_cases {s s' : Scan} (h : s.settle = .ok s') :
    s'.waiting = none ∧ ∀ option, s.waiting ≠ some (option, none) := by
  unfold settle at h
  split at h
  · rename_i hnone
    cases h
    exact ⟨hnone, by simp [hnone]⟩
  · cases h
  · rename_i hsome
    split at h
    · cases h
      exact ⟨rfl, by simp [hsome]⟩
    · cases h

theorem settle_of_waiting_none {s : Scan} (h : s.waiting = none) : s.settle = .ok s := by
  simp [settle, h]

theorem andThen_of_waiting_none {s : Scan} (h : s.waiting = none)
    (next : Scan → Except OptionError Scan) : s.andThen next = next s := by
  simp [andThen, settle_of_waiting_none h]

theorem plain_of_settled {s : Scan} (h : ∀ option, s.waiting ≠ some (option, none))
    (argument : String) :
    s.plain argument = s.andThen fun s => .ok { s with programs := s.programs ++ [argument] } := by
  unfold plain
  split
  · rename_i option hwaiting
    exact absurd hwaiting (h option)
  · rfl

/-- A value that waits for its turn may as well have had it. -/
theorem run_of_settle {s s' : Scan} (h : s.settle = .ok s') (arguments : List String) :
    s.run arguments = s'.run arguments := by
  obtain ⟨hsettled, hvalue⟩ := settle_cases h
  have hagain := settle_of_waiting_none hsettled
  have hnext (next : Scan → Except OptionError Scan) : s.andThen next = s'.andThen next := by
    simp [andThen, h, hagain]
  cases arguments with
  | nil => rw [run, run, h, hagain]
  | cons argument rest =>
    have hplain := plain_of_settled (s := s') (by simp [hsettled]) argument
    simp only [run, long, short, plain_of_settled hvalue, hplain, hnext]

theorem exists_andThen_error (s : Scan) (e : OptionError) :
    ∃ e', s.andThen (fun _ => .error e) = .error e' := by
  unfold andThen
  split <;> exact ⟨_, rfl⟩

theorem exists_short_error (s : Scan) (argument : String) (letter : Char) :
    ∃ e, s.short argument letter = .error e := by
  unfold short
  split
  · exact s.exists_andThen_error _
  · split
    · exact s.exists_andThen_error _
    · exact ⟨_, rfl⟩

theorem exists_long_error (s : Scan) (argument : String) {name : String} (value : Option String)
    (h : OptionName.ofText? name = none) : ∃ e, s.long argument name value = .error e := by
  simp only [long, h]
  split
  · split
    · exact ⟨_, rfl⟩
    · exact s.exists_andThen_error _
  · exact ⟨_, rfl⟩

/-- What waits and cannot have its turn lets the scan fail, unless it is an option that is given its
value only now. It is the first mistake if the arguments behind it can be read. -/
theorem run_of_settle_error {s : Scan} {e : OptionError} (h : s.settle = .error e)
    (arguments : List String)
    (hvalue : arguments.head?.map Argument.ofText = some .plain →
      ∀ option, s.waiting ≠ some (option, none)) :
    ∃ e', s.run arguments = .error e' ∧ ((Item.read? arguments).isSome = true → e' = e) := by
  have hnext (next : Scan → Except OptionError Scan) : s.andThen next = .error e := by
    simp [andThen, h]
  cases arguments with
  | nil => exact ⟨e, by rw [run, h], fun _ => rfl⟩
  | cons argument rest =>
    cases hargument : Argument.ofText argument with
    | separator => exact ⟨e, by simp [run, hargument, hnext], fun _ => rfl⟩
    | plain =>
      have hplain := plain_of_settled (hvalue (by simp [hargument])) argument
      exact ⟨e, by simp [run, hargument, hplain, hnext], fun _ => rfl⟩
    | short letter =>
      obtain ⟨e', he'⟩ := s.exists_short_error argument letter
      exact ⟨e', by simp [run, hargument, he'], by simp [Item.read?, hargument]⟩
    | long name value =>
      cases hname : OptionName.ofText? name with
      | some option =>
        refine ⟨e, ?_, fun _ => rfl⟩
        cases value <;> simp [run, hargument, long, hname, hnext]
      | none =>
        obtain ⟨e', he'⟩ := s.exists_long_error argument value hname
        refine ⟨e', by simp [run, hargument, he'], ?_⟩
        cases value with
        | some value => simp [Item.read?, hargument, hname]
        | none =>
          cases rest with
          | nil => simp [Item.read?, hargument]
          | cons value rest =>
            simp only [Item.read?, hargument, hname]
            split <;> simp

theorem foldlM_program (paths : List String) (s : Scan) :
    (paths.map Item.program).foldlM Item.perform s =
      .ok { s with programs := s.programs ++ paths } := by
  induction paths generalizing s with
  | nil => simp [pure, Except.pure]
  | cons path paths ih => simp [Item.perform, bind, Except.bind, ih]

theorem run_of_read {arguments : List String} {items : List Item}
    (h : Item.read? arguments = some items) {s : Scan} (hs : s.waiting = none) :
    s.run arguments = items.foldlM Item.perform s := by
  fun_induction Item.read? arguments generalizing items s with
  | case1 =>
    cases h
    exact settle_of_waiting_none hs
  | case2 argument rest hargument =>
    cases h
    simp only [run, hargument, andThen_of_waiting_none hs, foldlM_program]
  | case3 argument rest hargument ih =>
    obtain ⟨tail, htail, rfl⟩ := Option.map_eq_some_iff.1 h
    have hplain := plain_of_settled (s := s) (by simp [hs]) argument
    simp only [run, hargument, hplain, andThen_of_waiting_none hs, List.foldlM_cons, Item.perform]
    exact ih htail hs
  | case4 argument rest letter hargument => cases h
  | case5 argument rest name value hargument ih =>
    obtain ⟨option, hname, hrest⟩ := Option.bind_eq_some_iff.1 h
    obtain ⟨tail, htail, rfl⟩ := Option.map_eq_some_iff.1 hrest
    simp only [run, hargument, long, hname, andThen_of_waiting_none hs, List.foldlM_cons,
      Item.perform]
    cases s.settings.assign option value with
    | ok settings => exact ih htail hs
    | error e => rfl
  | case6 argument name hargument => cases h
  | case7 argument name hargument value rest hvalue ih =>
    obtain ⟨option, hname, hrest⟩ := Option.bind_eq_some_iff.1 h
    obtain ⟨tail, htail, rfl⟩ := Option.map_eq_some_iff.1 hrest
    obtain ⟨own, waiting, programs⟩ := s
    obtain rfl : waiting = none := hs
    simp only [run, hargument, long, hname, andThen_of_waiting_none, hvalue, plain,
      List.foldlM_cons, Item.perform]
    -- The value waits until the rest is looked at.
    cases hassign : own.assign option value with
    | ok settings =>
      have hsettle : (⟨own, some (option, some value), programs⟩ : Scan).settle =
          .ok ⟨settings, none, programs⟩ := by
        simp [settle, hassign]
      rw [run_of_settle hsettle]
      exact ih htail rfl
    | error e =>
      have hsettle : (⟨own, some (option, some value), programs⟩ : Scan).settle = .error e := by
        simp [settle, hassign]
      obtain ⟨e', hrun, hfirst⟩ := run_of_settle_error hsettle rest (by simp)
      rw [hrun, hfirst (by simp [htail])]
      rfl
  | case8 => cases h

theorem run_of_no_value {s : Scan} {option : OptionName} (hs : s.waiting = some (option, none))
    {arguments : List String} (h : arguments.head?.map Argument.ofText ≠ some .plain) :
    ∃ e, s.run arguments = .error e := by
  have hsettle : s.settle = .error (.missingValue option) := by simp [settle, hs]
  obtain ⟨e, hrun, _⟩ := run_of_settle_error hsettle arguments fun hplain => absurd hplain h
  exact ⟨e, hrun⟩

theorem run_of_value {settings : Settings} {option : OptionName} {value : String}
    {programs : List String} {arguments : List String}
    (h : ∀ s : Scan, s.waiting = none → ∃ e, s.run arguments = .error e) :
    ∃ e, (⟨settings, some (option, some value), programs⟩ : Scan).run arguments = .error e := by
  cases hsettle : (⟨settings, some (option, some value), programs⟩ : Scan).settle with
  | ok s =>
    rw [run_of_settle hsettle]
    exact h s (settle_cases hsettle).1
  | error e =>
    obtain ⟨e', hrun, _⟩ := run_of_settle_error hsettle arguments (by simp)
    exact ⟨e', hrun⟩

theorem run_of_read_none {arguments : List String} (h : Item.read? arguments = none) {s : Scan}
    (hs : s.waiting = none) : ∃ e, s.run arguments = .error e := by
  have hunknown {argument name : String} {value : Option String} {rest : List String}
      (hargument : Argument.ofText argument = .long name value)
      (hname : OptionName.ofText? name = none) (t : Scan) :
      ∃ e, t.run (argument :: rest) = .error e := by
    obtain ⟨e, he⟩ := t.exists_long_error argument value hname
    exact ⟨e, by simp [run, hargument, he]⟩
  fun_induction Item.read? arguments generalizing s with
  | case1 => cases h
  | case2 argument rest hargument => cases h
  | case3 argument rest hargument ih =>
    have hplain := plain_of_settled (s := s) (by simp [hs]) argument
    simp only [run, hargument, hplain, andThen_of_waiting_none hs]
    exact ih (Option.map_eq_none_iff.1 h) hs
  | case4 argument rest letter hargument =>
    obtain ⟨e, he⟩ := s.exists_short_error argument letter
    exact ⟨e, by simp [run, hargument, he]⟩
  | case5 argument rest name value hargument ih =>
    cases hname : OptionName.ofText? name with
    | none => exact hunknown hargument hname s
    | some option =>
      simp only [run, hargument, long, hname, andThen_of_waiting_none hs]
      cases s.settings.assign option value with
      | ok settings => exact ih (by simpa [hname] using h) hs
      | error e => exact ⟨e, rfl⟩
  | case6 argument name hargument =>
    cases hname : OptionName.ofText? name with
    | none => exact hunknown hargument hname s
    | some option =>
      simp only [run, hargument, long, hname, andThen_of_waiting_none hs]
      exact ⟨_, rfl⟩
  | case7 argument name hargument value rest hvalue ih =>
    cases hname : OptionName.ofText? name with
    | none => exact hunknown hargument hname s
    | some option =>
      simp only [run, hargument, long, hname, andThen_of_waiting_none hs, hvalue, plain]
      exact run_of_value fun t => ih (by simpa [hname] using h)
  | case8 argument name hargument value rest hvalue =>
    cases hname : OptionName.ofText? name with
    | none => exact hunknown hargument hname s
    | some option =>
      have hlong : s.run (argument :: value :: rest) =
          ({ s with waiting := some (option, none) } : Scan).run (value :: rest) := by
        rw [run]
        simp only [hargument, long, hname, andThen_of_waiting_none hs]
      rw [hlong]
      exact run_of_no_value rfl (by simpa using hvalue)

end Scan

theorem Argument.eq_of_separator {argument : String} (h : ofText argument = .separator) :
    argument = "--" := by
  unfold ofText at h
  split at h
  · rename_i hlist
    exact String.toList_inj.1 hlist
  all_goals cases h

/-- Lists in a row ask for what each of them asks for, unless the first one ends the options. -/
theorem Item.read?_append {a : List String} {items : List Item} (h : read? a = some items)
    (hseparator : "--" ∉ a) (b : List String) : read? (a ++ b) = (read? b).map (items ++ ·) := by
  fun_induction read? a generalizing items with
  | case1 =>
    cases h
    simp
  | case2 argument rest hargument =>
    exact absurd (Argument.eq_of_separator hargument) (by grind)
  | case3 argument rest hargument ih =>
    obtain ⟨tail, htail, rfl⟩ := Option.map_eq_some_iff.1 h
    have hrest := ih htail (by grind)
    simp [read?, hargument, hrest, Function.comp_def]
  | case4 argument rest letter hargument => cases h
  | case5 argument rest name value hargument ih =>
    obtain ⟨option, hname, hmap⟩ := Option.bind_eq_some_iff.1 h
    obtain ⟨tail, htail, rfl⟩ := Option.map_eq_some_iff.1 hmap
    have hrest := ih htail (by grind)
    simp [read?, hargument, hname, hrest, Function.comp_def]
  | case6 argument name hargument => cases h
  | case7 argument name hargument value rest hvalue ih =>
    obtain ⟨option, hname, hmap⟩ := Option.bind_eq_some_iff.1 h
    obtain ⟨tail, htail, rfl⟩ := Option.map_eq_some_iff.1 hmap
    have hrest := ih htail (by grind)
    simp [read?, hargument, hvalue, hname, hrest, Function.comp_def]
  | case8 => cases h

end Provenance
