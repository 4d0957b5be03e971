import Mathlib.Algebra.Group.Action.Defs
import Provenance.Proofs.Size

/-!
How much text a value is rendered to. Rendering writes every operand out through the values that the
snapshot holds for it, once for each time the expression names it, while the size counts these
values once. As long as no expression names an operand twice, no more values are rendered than the
size counts, and the text stays in proportion to it; every doubled operand may double the text.
-/

set_option autoImplicit false

namespace Provenance

theorem sum_lt_pow {α : Type} {k : Nat} {weight exponent : α → Nat} {xs : List α}
    (h : ∀ x ∈ xs, weight x < k ^ exponent x) :
    (xs.map weight).sum < k ^ (xs.map exponent).sum := by
  induction xs with
  | nil => simp
  | cons x xs ih =>
    have hx := h x (by simp)
    have hxs := ih fun y hy => h y (by simp [hy])
    have hmul := Nat.mul_le_mul hx hxs
    rw [List.map_cons, List.map_cons, List.sum_cons, List.sum_cons, Nat.pow_add]
    simp only [Nat.succ_eq_add_one, Nat.add_mul, Nat.mul_add] at hmul
    omega

theorem Table.lookup_map {κ α β : Type} [DecidableEq κ] (f : α → β) (k : κ)
    (entries : List (κ × α)) :
    (entries.map fun e => (e.1, f e.2)).lookup k = (findEntry k entries).map f := by
  induction entries with
  | nil => rfl
  | cons e rest ih =>
    by_cases h : k = e.1
    · simp [findEntry, h]
    · have hne : (k == e.1) = false := by simpa using h
      simp [findEntry, List.lookup_cons, h, hne, ih]

/-- The operands that an expression writes out through what they held. What was returned and what a
symbol stands for is only named. -/
def Expression.rendered : Expression → List Operand
  | .returned _ | .symbol _ => []
  | e => e.operands

namespace SymbolicValue

mutual

/-- How many values are rendered to write a value out: itself, and for each time its expression
names an operand, what it takes to write out the values that were held for that operand. -/
def renders : SymbolicValue → Nat
  | ⟨e, _, _, ⟨entries⟩⟩ =>
    1 + (e.rendered.map fun o => ((entryRenders entries).lookup o).getD 0).sum

def entryRenders : List (Operand × List SymbolicValue) → List (Operand × Nat)
  | [] => []
  | (o, values) :: rest => (o, valueRenders values) :: entryRenders rest

def valueRenders : List SymbolicValue → Nat
  | [] => 0
  | v :: rest => renders v + valueRenders rest

end

def held (v : SymbolicValue) (o : Operand) : List SymbolicValue := (v.snapshot.get? o).getD []

theorem valueRenders_eq (values : List SymbolicValue) :
    valueRenders values = (values.map renders).sum := by
  induction values with
  | nil => rfl
  | cons v rest ih => rw [valueRenders, ih, List.map_cons, List.sum_cons]

theorem entryRenders_eq (entries : List (Operand × List SymbolicValue)) :
    entryRenders entries = entries.map fun e => (e.1, valueRenders e.2) := by
  induction entries with
  | nil => rfl
  | cons e rest ih => rw [entryRenders, ih, List.map_cons]

theorem renders_eq (v : SymbolicValue) :
    v.renders = 1 + (v.expression.rendered.map fun o => ((v.held o).map renders).sum).sum := by
  obtain ⟨e, n, ts, ⟨entries⟩⟩ := v
  rw [renders]
  congr 3
  funext o
  rw [entryRenders_eq, Table.lookup_map, held, Table.get?]
  cases Table.findEntry o entries with
  | none => rfl
  | some values => exact valueRenders_eq values

theorem mem_entries_of_mem_held {v w : SymbolicValue} {o : Operand} (h : w ∈ v.held o) :
    ∃ entry ∈ v.snapshot.entries, w ∈ entry.2 := by
  unfold held at h
  cases hget : v.snapshot.get? o with
  | none => simp [hget] at h
  | some values =>
    rw [hget] at h
    exact ⟨(o, values), Table.mem_of_get? hget, h⟩

/-- A property of all values that holds of a value if it holds of everything in its snapshot. -/
theorem snapshot_induction {P : SymbolicValue → Prop}
    (step : ∀ v, (∀ entry ∈ v.snapshot.entries, ∀ w ∈ entry.2, P w) → P v) (v : SymbolicValue) :
    P v := by
  induction hn : v.nodes using Nat.strong_induction_on generalizing v with
  | _ n ih =>
    apply step
    intro entry he w hw
    have hle := Snapshot.le_sum nodes he hw
    have hnodes := nodes_eq v
    exact ih w.nodes (by omega) w rfl

def IsPart (w v : SymbolicValue) : Prop := w = v ∨ ∃ depth, Within depth w v

theorem IsPart.of_held {v u w : SymbolicValue} {entry : Operand × List SymbolicValue}
    (h : IsPart w u) (he : entry ∈ v.snapshot.entries) (hu : u ∈ entry.2) : IsPart w v := by
  rcases h with rfl | ⟨depth, hwithin⟩
  · exact Or.inr ⟨1, .here he hu⟩
  · exact Or.inr ⟨depth + 1, .deeper he hu hwithin⟩

theorem Built.part {v w : SymbolicValue} (h : v.Built) (hw : IsPart w v) : w.Built := by
  rcases hw with rfl | ⟨depth, hwithin⟩
  · exact h
  · induction hwithin with
    | here he hw => exact h.held he hw
    | deeper he hu _ ih => exact ih (h.held he hu)

theorem IsPart.cases {v w : SymbolicValue} (h : IsPart w v) :
    w = v ∨ ∃ entry ∈ v.snapshot.entries, ∃ u ∈ entry.2, IsPart w u := by
  rcases h with rfl | ⟨depth, hwithin⟩
  · exact Or.inl rfl
  · cases hwithin with
    | here he hw => exact Or.inr ⟨_, he, w, hw, Or.inl rfl⟩
    | deeper he hu hdeeper => exact Or.inr ⟨_, he, _, hu, Or.inr ⟨_, hdeeper⟩⟩

/-- No expression in the value names an operand that it holds values for more than so many times. -/
def NamesAtMost (k : Nat) (v : SymbolicValue) : Prop :=
  ∀ w, IsPart w v → ∀ o ∈ w.snapshot.keys, w.expression.rendered.count o ≤ k

theorem NamesAtMost.held {k : Nat} {v u : SymbolicValue} (h : v.NamesAtMost k)
    {entry : Operand × List SymbolicValue} (he : entry ∈ v.snapshot.entries) (hu : u ∈ entry.2) :
    u.NamesAtMost k :=
  fun w hw => h w (hw.of_held he hu)

theorem NamesAtMost.of_held {k : Nat} {v : SymbolicValue}
    (hown : ∀ o ∈ v.snapshot.keys, v.expression.rendered.count o ≤ k)
    (hheld : ∀ entry ∈ v.snapshot.entries, ∀ u ∈ entry.2, u.NamesAtMost k) : v.NamesAtMost k := by
  intro w hw
  rcases hw.cases with rfl | ⟨entry, he, u, hu, hpart⟩
  · exact hown
  · exact hheld entry he u hu w hpart

theorem NamesAtMost.leaf (k : Nat) (e : Expression) : (SymbolicValue.leaf e).NamesAtMost k :=
  .of_held (by simp [SymbolicValue.leaf, Table.empty, Table.keys])
    (by simp [SymbolicValue.leaf, Table.empty])

theorem sum_findEntry_le (weight : SymbolicValue → Nat) (k : Nat) (os : List Operand)
    (entries : List (Operand × List SymbolicValue)) (h : ∀ e ∈ entries, os.count e.1 ≤ k) :
    (os.map fun o => (((Table.findEntry o entries).getD []).map weight).sum).sum ≤
      k * ((entries.flatMap (·.2)).map weight).sum := by
  induction entries with
  | nil => simp [Table.findEntry]
  | cons e rest ih =>
    obtain ⟨j, values⟩ := e
    have hrest := ih fun e he => h e (by simp [he])
    have hcount := h (j, values) (by simp)
    have hfirst : (os.map fun o => if o = j then (values.map weight).sum else 0).sum =
        os.count j * (values.map weight).sum := by
      rw [List.sum_map_eq_nsmul_single j _ (by simp +contextual), if_pos rfl, smul_eq_mul]
    -- What is found under an operand is the first entry, if it is for that operand, or in the rest.
    have hsplit : (os.map fun o =>
          (((Table.findEntry o ((j, values) :: rest)).getD []).map weight).sum).sum ≤
        (os.map fun o => (if o = j then (values.map weight).sum else 0) +
          (((Table.findEntry o rest).getD []).map weight).sum).sum := by
      apply List.sum_le_sum
      intro o _
      by_cases ho : o = j <;> simp [Table.findEntry, ho]
    rw [List.sum_map_add, hfirst] at hsplit
    rw [List.flatMap_cons, List.map_append, List.sum_append, Nat.mul_add]
    have hmul := Nat.mul_le_mul_right (values.map weight).sum hcount
    dsimp only at hmul ⊢
    omega

theorem sum_held_le (weight : SymbolicValue → Nat) {k : Nat} {v : SymbolicValue}
    (h : ∀ o ∈ v.snapshot.keys, v.expression.rendered.count o ≤ k) :
    (v.expression.rendered.map fun o => ((v.held o).map weight).sum).sum ≤
      k * ((Snapshot.values v.snapshot).map weight).sum :=
  sum_findEntry_le weight k v.expression.rendered v.snapshot.entries
    fun e he => h e.1 (Table.mem_keys_of_mem he)

theorem Sized.nodes_le_size {v : SymbolicValue} (h : v.Sized) : v.nodes ≤ v.size := by
  rcases h.counted with hcounted | ⟨_, hlimit⟩
  · omega
  · have hle := h.nodes_le
    omega

theorem renders_le_nodes {v : SymbolicValue} (h : v.NamesAtMost 1) : v.renders ≤ v.nodes := by
  induction v using snapshot_induction with
  | step v ih =>
    have hheld := sum_held_le renders (h v (Or.inl rfl))
    have hsum : ((Snapshot.values v.snapshot).map renders).sum ≤
        ((Snapshot.values v.snapshot).map nodes).sum := by
      apply List.sum_le_sum
      intro w hw
      obtain ⟨entry, he, hw⟩ := Snapshot.mem_values.1 hw
      exact ih entry he w hw (h.held he hw)
    rw [renders_eq, nodes_eq]
    omega

/-- If every operand is named up to `k` times, each value can multiply the number by `k`. -/
theorem renders_lt_pow_nodes {k : Nat} (hk : 2 ≤ k) {v : SymbolicValue} (h : v.NamesAtMost k) :
    v.renders < k ^ v.nodes := by
  induction v using snapshot_induction with
  | step v ih =>
    have hheld := sum_held_le renders (h v (Or.inl rfl))
    have hsum : ((Snapshot.values v.snapshot).map renders).sum <
        k ^ ((Snapshot.values v.snapshot).map nodes).sum := by
      apply sum_lt_pow
      intro w hw
      obtain ⟨entry, he, hw⟩ := Snapshot.mem_values.1 hw
      exact ih entry he w hw (h.held he hw)
    have hmul := Nat.mul_le_mul_left k hsum
    rw [Nat.succ_eq_add_one, Nat.mul_add] at hmul
    rw [renders_eq, nodes_eq, Nat.pow_succ, Nat.mul_comm]
    omega

end SymbolicValue

theorem length_intercalate_map_le (separator : String) {f g : Operand → String}
    {extra : Operand → Nat} (h : ∀ o, (f o).length ≤ (g o).length + extra o) (os : List Operand) :
    (separator.intercalate (os.map f)).length ≤
      (separator.intercalate (os.map g)).length + (os.map extra).sum := by
  simp only [← String.length_toList, String.toList_intercalate, List.map_map]
  induction os with
  | nil => simp
  | cons o rest ih =>
    have ho := h o
    simp only [← String.length_toList] at ho
    cases rest with
    | nil => simpa using ho
    | cons p rest =>
      simp only [List.map_cons, List.intercalate_cons_cons, List.length_append, List.sum_cons,
        Function.comp_apply] at ih ⊢
      omega

theorem Expression.length_textWith_le {f g : Operand → String} {extra : Operand → Nat}
    (h : ∀ o, (f o).length ≤ (g o).length + extra o) (e : Expression) :
    (e.textWith f).length ≤ (e.textWith g).length + (e.rendered.map extra).sum := by
  cases e with
  | binary left operator right =>
    have hl := h left
    have hr := h right
    simp [textWith, rendered, operands]; omega
  | field base name =>
    have hb := h base
    simp [textWith, rendered, operands]; omega
  | call method receiver arguments =>
    have hargs := length_intercalate_map_le ", " h arguments
    cases receiver with
    | none => simp [textWith, rendered, operands]; omega
    | some base =>
      have hb := h base
      simp [textWith, rendered, operands]; omega
  | object className arguments =>
    have hargs := length_intercalate_map_le ", " h arguments
    simp [textWith, rendered, operands]; omega
  | unknown annotations => cases annotations <;> simp [textWith]
  | _ => simp [textWith]

def Expression.breadth : Expression → Nat
  | .constant c => max c.render.length c.text.length
  | e => (e.textWith Operand.text).length

theorem Expression.length_textWith_text_le (e : Expression) :
    (e.textWith Operand.text).length ≤ e.breadth := by
  cases e <;> simp [breadth, textWith]

namespace SymbolicValue

theorem valueTexts_eq (values : List SymbolicValue) :
    valueTexts values = values.map operandText := by
  induction values with
  | nil => rfl
  | cons v rest ih => rw [valueTexts, ih, List.map_cons]

theorem entryTexts_eq (entries : List (Operand × List SymbolicValue)) :
    entryTexts entries = entries.map fun e => (e.1, valueTexts e.2) := by
  induction entries with
  | nil => rfl
  | cons e rest ih => rw [entryTexts, ih, List.map_cons]

theorem length_intercalate_add_two (texts : List String) (hne : texts ≠ []) :
    (", ".intercalate texts).length + 2 = (texts.map fun t => t.length + 2).sum := by
  simp only [← String.length_toList, String.toList_intercalate]
  induction texts with
  | nil => contradiction
  | cons t rest ih =>
    cases rest with
    | nil => simp
    | cons u rest =>
      have hrest := ih (by simp)
      have hseparator : ", ".toList.length = 2 := by decide
      simp only [List.map_cons, List.intercalate_cons_cons, List.length_append, List.sum_cons,
        hseparator] at hrest ⊢
      omega

theorem length_textAmong_le (v : SymbolicValue) (o : Operand) :
    (Operand.textAmong (entryTexts v.snapshot.entries) o).length ≤
      o.text.length + ((v.held o).map fun w => w.operandText.length + 2).sum := by
  unfold Operand.textAmong
  rw [entryTexts_eq, Table.lookup_map, held, Table.get?]
  rcases Table.findEntry o v.snapshot.entries with _ | _ | ⟨w, _ | ⟨u, rest⟩⟩
  · simp
  · simp [valueTexts]
  · simp [valueTexts]; omega
  · have hbraces := length_intercalate_add_two (valueTexts (w :: u :: rest)) (by simp [valueTexts])
    have hsum : ((valueTexts (w :: u :: rest)).map fun t => t.length + 2) =
        (w :: u :: rest).map fun w => w.operandText.length + 2 := by
      rw [valueTexts_eq, List.map_map]
      rfl
    have hopen : "\x7b".length = 1 := by decide
    have hclose : "\x7d".length = 1 := by decide
    simp only [Option.map_some, Option.getD_some, valueTexts] at hbraces hsum ⊢
    rw [← hsum, ← hbraces, String.length_append, String.length_append, hopen, hclose]
    omega

theorem operandText_cases (v : SymbolicValue) :
    v.operandText = v.text ∨ ∃ c, v.expression = .constant c ∧ v.operandText = c.text := by
  obtain ⟨e, n, ts, ⟨entries⟩⟩ := v
  cases e with
  | constant c => exact Or.inr ⟨c, rfl, rfl⟩
  | _ => exact Or.inl rfl

/-- A text is in proportion to the number of values rendered for it. -/
theorem length_texts_le {bound : Nat} {v : SymbolicValue}
    (h : ∀ w, IsPart w v → w.expression.breadth ≤ bound) :
    v.text.length + 2 ≤ v.renders * (bound + 2) ∧
      v.operandText.length + 2 ≤ v.renders * (bound + 2) := by
  induction v using snapshot_induction with
  | step v ih =>
    have hown := h v (Or.inl rfl)
    have hheld : (v.expression.rendered.map fun o =>
          ((v.held o).map fun w => w.operandText.length + 2).sum).sum ≤
        (v.expression.rendered.map fun o => ((v.held o).map renders).sum).sum * (bound + 2) := by
      rw [← List.sum_map_mul_right]
      apply List.sum_le_sum
      intro o _
      rw [← List.sum_map_mul_right]
      apply List.sum_le_sum
      intro w hw
      obtain ⟨entry, he, hw⟩ := mem_entries_of_mem_held hw
      exact (ih entry he w hw fun u hu => h u (hu.of_held he hw)).2
    have htext : v.text.length + 2 ≤ v.renders * (bound + 2) := by
      have hlonger := Expression.length_textWith_le v.length_textAmong_le v.expression
      have hnames := v.expression.length_textWith_text_le
      rw [renders_eq, Nat.add_mul, Nat.one_mul]
      unfold text
      omega
    refine ⟨htext, ?_⟩
    rcases v.operandText_cases with hsame | ⟨c, hconstant, hliteral⟩
    · rwa [hsame]
    · rw [hconstant, Expression.breadth] at hown
      rw [hliteral, renders_eq, Nat.add_mul, Nat.one_mul]
      omega

def doubled [Enumeration] (o : Operand) : Nat → SymbolicValue
  | 0 => .symbol o
  | n + 1 => .make (.binary o .add o) ⟨[(o, [doubled o n])]⟩

theorem size_doubled [Enumeration] (o : Operand) {n : Nat} (h : n < sizeLimit) :
    (doubled o n).size = n + 1 := by
  induction n with
  | zero => rfl
  | succ n ih =>
    have hn := ih (by omega)
    simp [doubled, make, Snapshot.size, hn]
    omega

theorem namesAtMost_doubled [Enumeration] (o : Operand) (n : Nat) :
    (doubled o n).NamesAtMost 2 := by
  induction n with
  | zero => exact .leaf 2 _
  | succ n ih =>
    refine .of_held ?_ ?_
    · intro p _
      have hlength : (doubled o (n + 1)).expression.rendered.length = 2 := rfl
      exact hlength ▸ List.count_le_length
    · intro entry he u hu
      obtain ⟨he, _⟩ := mem_snapshot_make he
      rw [List.mem_singleton.1 he] at hu
      rwa [List.mem_singleton.1 hu]

theorem renders_doubled [Enumeration] (o : Operand) {n : Nat} (h : n < sizeLimit) :
    (doubled o n).renders + 1 = 2 ^ (n + 1) := by
  induction n with
  | zero => simp [doubled, symbol, leaf, renders, Expression.rendered]
  | succ n ih =>
    have hn := ih (by omega)
    have hsize := size_doubled o (show n < sizeLimit by omega)
    have hkept : (doubled o (n + 1)).snapshot = ⟨[(o, [doubled o n])]⟩ := by
      have hsmall : ¬ sizeLimit < Snapshot.size ⟨[(o, [doubled o n])]⟩ + 1 := by
        simp [Snapshot.size, hsize]
        omega
      simp [doubled, make, hsmall]
    have hheld : (doubled o (n + 1)).held o = [doubled o n] := by
      simp [held, hkept, Table.get?, Table.findEntry]
    have hrendered : (doubled o (n + 1)).expression.rendered = [o, o] := rfl
    rw [renders_eq, hrendered, Nat.pow_succ]
    simp only [List.map_cons, List.map_nil, List.sum_cons, List.sum_nil, hheld]
    omega

end SymbolicValue

open SymbolicValue

namespace Visit

def doublingBody (n : Nat) : Body where
  method := ⟨"com.example.Doubling", "grow", ["int"], "int"⟩
  statements :=
    .ofInstruction (.identity (.named "i0" "int") 0) ::
      List.replicate n (.ofInstruction
        (.binary (.named "i0" "int") .add (.named "i0" "int") (.named "i0" "int")))

theorem resolve?_doublingBody [Enumeration] (names : KnownName.Cache) {limit : Nat}
    (hlimit : 1 ≤ limit) (m : Nat) {n : Nat} (hn : n ≤ m) :
    (upTo Recognizer.standard names limit (doublingBody m) (n + 1)).environment.resolve?
      (.named "i0" "int") = some [doubled (.named "i0" "int") n] := by
  have hlimited : ∀ k,
      1 ≤ (upTo Recognizer.standard names limit (doublingBody m) k).environment.limit := by
    intro k
    rwa [(wellFormed_upTo Recognizer.standard names limit (doublingBody m) k).limit_eq]
  induction n with
  | zero =>
    rw [upTo_succ Recognizer.standard names limit (n := 0) rfl]
    refine resolve?_step_of_same_values _ (hlimited 0) rfl (List.mem_singleton_self _) ?_
    intro w hw
    exact congrArg Prod.snd (List.mem_singleton.1 hw)
  | succ n ih =>
    have hbefore := ih (by omega)
    have hstatement : (doublingBody m).statements[n + 1]? = some (.ofInstruction
        (.binary (.named "i0" "int") .add (.named "i0" "int") (.named "i0" "int"))) := by
      have hlt : n < m := by omega
      simp [doublingBody, hlt]
    rw [upTo_succ Recognizer.standard names limit hstatement]
    refine resolve?_step_of_same_values _ (hlimited (n + 1)) rfl (List.mem_singleton_self _) ?_
    simp [Effect.standard, Effect.ofInstruction, Statement.ofInstruction, Effect.write,
      Effect.ofWrites, doubled, makeIn, Environment.capture, Expression.operands, hbefore,
      Operand.isLiteral, Operand.literal?, Table.insert, Table.insertEntry, Table.empty]

def Reaches (v : Visit) (w : SymbolicValue) : Prop :=
  ∃ u, (v.environment.Stores u ∨ u ∈ v.returns) ∧ IsPart w u

theorem Built.reaches {v : Visit} (h : v.Built) {w : SymbolicValue} (hw : v.Reaches w) :
    w.Built := by
  obtain ⟨u, hu | hu, hpart⟩ := hw
  · exact (h.stored u hu).part hpart
  · exact (h.returned u hu).part hpart

theorem reaches_doubled [Enumeration] (names : KnownName.Cache) {limit : Nat}
    (hlimit : 1 ≤ limit) (n : Nat) :
    (upTo Recognizer.standard names limit (doublingBody n) (n + 1)).Reaches
      (doubled (.named "i0" "int") n) := by
  have hresolve := resolve?_doublingBody names hlimit n (Nat.le_refl n)
  have hstored := Environment.stores_of_resolve? hresolve (List.mem_singleton_self _)
  exact ⟨_, Or.inl hstored, Or.inl rfl⟩

/-- What it takes to render the values of a visit. If no expression in a value names an operand
twice, no more values are rendered for it than its size counts, which are 1000 at most. If operands
are named up to `k` times, the number stays below the power of `k` by the size, and the length of
the text is in proportion to the number. A variable that is added to itself again and again reaches
that power, so the limit on the size does not limit what is rendered. -/
theorem rendering_bounds [Enumeration] (names : KnownName.Cache) (limit : Nat) (body : Body)
    (n : Nat) :
    (∀ v, (upTo Recognizer.standard names limit body n).Reaches v →
      (v.NamesAtMost 1 → v.renders ≤ v.size ∧ v.renders ≤ 1000) ∧
      (∀ k, 2 ≤ k → v.NamesAtMost k → v.renders < k ^ v.size) ∧
      ∀ bound, (∀ w, IsPart w v → w.expression.breadth ≤ bound) →
        v.text.length ≤ v.renders * (bound + 2)) ∧
    (1 ≤ limit → n < 1000 →
      ∃ v, (upTo Recognizer.standard names limit (doublingBody n) (n + 1)).Reaches v ∧
        v.NamesAtMost 2 ∧ v.size = n + 1 ∧ v.renders + 1 = 2 ^ v.size) := by
  constructor
  · intro v hreaches
    have hbuilt := built_upTo Recognizer.builds_standard names limit body n
    have hsized := (hbuilt.reaches hreaches).sized
    have hnodes := hsized.nodes_le_size
    refine ⟨?_, ?_, ?_⟩
    · intro honce
      have hrenders := renders_le_nodes honce
      have hlimit : v.size ≤ 1000 := hsized.le_limit
      omega
    · intro k hk hnames
      exact Nat.lt_of_lt_of_le (renders_lt_pow_nodes hk hnames)
        (Nat.pow_le_pow_right (by omega) hnodes)
    · intro bound hbound
      have htext := (length_texts_le hbound).1
      omega
  · intro hlimit hn
    have hsize := size_doubled (.named "i0" "int") hn
    refine ⟨_, reaches_doubled names hlimit n, namesAtMost_doubled _ n, hsize, ?_⟩
    rw [hsize]
    exact renders_doubled _ hn

/-- Nine additions are enough: a value of size 10 for which 1023 values are rendered. -/
theorem rendering_exceeds_limit :
    ∃ v, (upTo Recognizer.standard .empty Environment.defaultLimit (doublingBody 9) 10).Reaches v ∧
      v.size = 10 ∧ v.renders = 1023 ∧ ¬ v.renders ≤ sizeLimit := by
  refine ⟨doubled (.named "i0" "int") 9, reaches_doubled .empty (by decide) 9, ?_⟩
  have hrenders := renders_doubled (.named "i0" "int") (show 9 < sizeLimit by decide)
  refine ⟨size_doubled _ (by decide), by omega, ?_⟩
  have hlimit : sizeLimit = 1000 := rfl
  omega

def readingBody : Body where
  method := ⟨"com.example.Reading", "first", ["com.example.Node"], "com.example.Node"⟩
  statements :=
    [.ofInstruction (.identity (.named "r0" "com.example.Node") 0),
     .ofInstruction (.fieldRead (.named "r1" "com.example.Node") (.named "r0" "com.example.Node")
      "next")]

theorem rendering_bounds_of_read :
    let node := Operand.named "r0" "com.example.Node"
    let next := SymbolicValue.make (.field node "next") ⟨[(node, [.symbol node])]⟩
    (upTo Recognizer.standard .empty Environment.defaultLimit readingBody 2).Reaches next ∧
      next.NamesAtMost 1 ∧ next.renders ≤ next.size ∧ next.renders ≤ 1000 ∧
      next.text.length ≤ next.renders * 9 ∧
      ∃ v, (upTo Recognizer.standard .empty 1 (doublingBody 999) 1000).Reaches v ∧
        v.size = 1000 ∧ v.renders + 1 = 2 ^ v.size := by
  intro node next
  have hresolve : (upTo Recognizer.standard .empty Environment.defaultLimit readingBody
      2).environment.resolve? (.named "r1" "com.example.Node") = some [next] := rfl
  have hstored := Environment.stores_of_resolve? hresolve (List.mem_singleton_self _)
  have hreaches : (upTo Recognizer.standard .empty Environment.defaultLimit readingBody
      2).Reaches next := ⟨_, Or.inl hstored, Or.inl rfl⟩
  have honce : next.NamesAtMost 1 := by
    refine .of_held (by decide +kernel) ?_
    intro entry he u hu
    obtain ⟨he, _⟩ := mem_snapshot_make he
    rw [List.mem_singleton.1 he] at hu
    rw [List.mem_singleton.1 hu]
    exact .leaf 1 _
  have hbreadth : ∀ w, IsPart w next → w.expression.breadth ≤ 7 := by
    intro w hw
    rcases hw.cases with rfl | ⟨entry, he, u, hu, hpart⟩
    · decide +kernel
    · obtain ⟨he, _⟩ := mem_snapshot_make he
      rw [List.mem_singleton.1 he] at hu
      rw [List.mem_singleton.1 hu] at hpart
      rcases hpart.cases with rfl | ⟨entry, he, _⟩
      · decide +kernel
      · cases he
  obtain ⟨hsimple, _, htext⟩ :=
    (rendering_bounds .empty Environment.defaultLimit readingBody 2).1 next hreaches
  obtain ⟨v, hv, _, hsize, hrenders⟩ :=
    (rendering_bounds .empty 1 readingBody 999).2 (by decide) (by decide)
  exact ⟨hreaches, honce, (hsimple honce).1, (hsimple honce).2, htext 7 hbreadth, v, hv, hsize,
    hrenders⟩

end Visit

end Provenance
