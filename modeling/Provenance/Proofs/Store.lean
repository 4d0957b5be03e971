import Mathlib.Data.List.Induction
import Provenance.Environment
import Provenance.Proofs.OrderedUnion

/-!
The environment against a plain log of the writes made to it. A lookup by operand, with its detour
through the printed form, and a query under a condition both have an answer that can be read off
the log; the main statement says that the environment gives the same one.
-/

set_option autoImplicit false

namespace Provenance

namespace Environment

@[simp] theorem limit_update (env : Environment) (o : Operand) (values : List SymbolicValue)
    (condition : Option Condition) : (env.update o values condition).limit = env.limit := rfl

theorem collapse_of_lt {limit : Nat} (o : Operand) {values : List SymbolicValue}
    (h : limit < values.length) :
    collapse limit o values =
      [⟨.unknown [o.text], 1, TagSet.unions (values.map SymbolicValue.tags), .empty⟩] := by
  simp [collapse, h, SymbolicValue.unknownFor, SymbolicValue.unknown, SymbolicValue.leaf,
    SymbolicValue.annotate, SymbolicValue.addTags]

theorem collapse_of_le {limit : Nat} (o : Operand) {values : List SymbolicValue}
    (h : values.length ≤ limit) : collapse limit o values = values := by
  have hn : ¬ limit < values.length := by omega
  simp [collapse, hn]

end Environment

structure Write where
  operand : Operand
  values : List SymbolicValue
  condition : Option Condition

abbrev Log := List Write

namespace Log

def replay (limit : Nat) (log : Log) : Environment :=
  log.foldl (fun env w => env.update w.operand w.values w.condition) (.new limit)

/-- The values that a write leaves behind: more than the limit become a single unknown value with
the tags of all of them. -/
def kept (limit : Nat) (w : Write) : List SymbolicValue :=
  if limit < w.values.length then
    [⟨.unknown [w.operand.text], 1, TagSet.unions (w.values.map SymbolicValue.tags), .empty⟩]
  else w.values

/-- The operand whose writes answer for `o`: itself if it was written, else the last one written
that prints the same. -/
def key? (log : Log) (o : Operand) : Option Operand :=
  if ∃ w ∈ log, w.operand = o then some o
  else (log.reverse.find? fun w => w.operand.text = o.text).map Write.operand

def history (limit : Nat) (log : Log) (k : Operand) : History :=
  ⟨(log.filter fun w => w.operand = k).map fun w => (w.condition, kept limit w)⟩

/-- The last write to an operand that counts under a condition: without one they all do, with one
those that were made under it or under none. -/
def latest? (limit : Nat) (log : Log) (k : Operand) (query : Option Condition) :
    Option (List SymbolicValue) :=
  (log.reverse.find? fun w =>
    w.operand = k ∧ (query = none ∨ w.condition = none ∨ w.condition = query)).map (kept limit)

theorem collapse_eq_kept (limit : Nat) (w : Write) :
    Environment.collapse limit w.operand w.values = kept limit w := by
  by_cases h : limit < w.values.length
  · simp [Environment.collapse_of_lt w.operand h, kept, h]
  · simp [Environment.collapse_of_le w.operand (Nat.le_of_not_lt h), kept, h]

theorem replay_append_singleton (limit : Nat) (log : Log) (w : Write) :
    replay limit (log ++ [w]) = (replay limit log).update w.operand w.values w.condition := by
  simp [replay]

@[simp] theorem limit_replay (limit : Nat) (log : Log) : (replay limit log).limit = limit := by
  induction log using List.reverseRecOn with
  | nil => rfl
  | append_singleton log w ih => rw [replay_append_singleton, Environment.limit_update, ih]

theorem history_append_self (limit : Nat) (log : Log) (w : Write) :
    history limit (log ++ [w]) w.operand =
      (history limit log w.operand).record w.condition (kept limit w) := by
  simp [history, History.record]

theorem history_append_of_ne (limit : Nat) (log : Log) {w : Write} {k : Operand}
    (h : w.operand ≠ k) : history limit (log ++ [w]) k = history limit log k := by
  simp [history, h]

theorem history_of_unwritten (limit : Nat) {log : Log} {k : Operand}
    (h : ¬ ∃ w ∈ log, w.operand = k) : history limit log k = .empty := by
  have hf : log.filter (fun w => decide (w.operand = k)) = [] := by
    rw [List.filter_eq_nil_iff]
    intro w hw
    simpa using fun e => h ⟨w, hw, e⟩
  simp [history, hf, History.empty]

theorem histories_replay (limit : Nat) (log : Log) (o : Operand) :
    (replay limit log).histories.get? o =
      if ∃ w ∈ log, w.operand = o then some (history limit log o) else none := by
  induction log using List.reverseRecOn with
  | nil => simp [replay, Environment.new]
  | append_singleton log w ih =>
    rw [replay_append_singleton, Environment.histories_update, limit_replay, collapse_eq_kept]
    by_cases ho : o = w.operand
    · subst ho
      have hprior : ((replay limit log).histories.get? w.operand).getD .empty =
          history limit log w.operand := by
        rw [ih]
        by_cases hw : ∃ u ∈ log, u.operand = w.operand
        · simp only [hw, if_true, Option.getD_some]
        · simp only [hw, if_false, Option.getD_none, history_of_unwritten limit hw]
      simp [hprior, history_append_self]
    · have hne : w.operand ≠ o := fun e => ho e.symm
      simp [ho, ih, hne, history_append_of_ne limit log hne]

theorem byText_replay (limit : Nat) (log : Log) (text : String) :
    (replay limit log).byText.get? text =
      (log.reverse.find? fun w => w.operand.text = text).map Write.operand := by
  induction log using List.reverseRecOn with
  | nil => simp [replay, Environment.new]
  | append_singleton log w ih =>
    rw [replay_append_singleton, Environment.byText_update, ih]
    by_cases h : text = w.operand.text
    · simp [h]
    · have hne : w.operand.text ≠ text := fun e => h e.symm
      simp [h, hne]

theorem key?_of_written {log : Log} {o : Operand} (h : ∃ w ∈ log, w.operand = o) :
    key? log o = some o := if_pos h

theorem key?_of_unwritten {log : Log} {o : Operand} (h : ¬ ∃ w ∈ log, w.operand = o) :
    key? log o = (log.reverse.find? fun w => w.operand.text = o.text).map Write.operand := if_neg h

theorem key?_eq_none_iff (log : Log) (o : Operand) :
    key? log o = none ↔ ∀ w ∈ log, w.operand.text ≠ o.text := by
  by_cases h : ∃ w ∈ log, w.operand = o
  · obtain ⟨w, hw, rfl⟩ := h
    rw [key?_of_written ⟨w, hw, rfl⟩]
    simpa using ⟨w, hw, rfl⟩
  · simp [key?_of_unwritten h]

/-- A lookup gives the writes to the operand that answers for the one looked up. -/
theorem get?_replay (limit : Nat) (log : Log) (o : Operand) :
    (replay limit log).get? o = (key? log o).map (history limit log) := by
  have hown := histories_replay limit log o
  by_cases h : ∃ w ∈ log, w.operand = o
  · rw [if_pos h] at hown
    simp only [Environment.get?, hown, key?_of_written h, Option.map_some]
  · rw [if_neg h] at hown
    simp only [Environment.get?, hown, key?_of_unwritten h, byText_replay]
    cases hf : log.reverse.find? fun w => decide (w.operand.text = o.text) with
    | none => rfl
    | some w =>
      -- The index only names operands that were written, so the second lookup succeeds.
      have hw : ∃ u ∈ log, u.operand = w.operand :=
        ⟨w, List.mem_reverse.1 (List.mem_of_find?_eq_some hf), rfl⟩
      simp [histories_replay, hw]

theorem isCoherent_iff (query entry : Option Condition) :
    History.isCoherent query entry = true ↔ query = none ∨ entry = none ∨ entry = query := by
  cases query with
  | none => simp [History.isCoherent]
  | some c =>
    cases entry with
    | none => simp [History.isCoherent]
    | some d => simpa [History.isCoherent] using eq_comm

theorem latest?_history (limit : Nat) (log : Log) (k : Operand) (query : Option Condition) :
    (history limit log k).latest? query = latest? limit log k query := by
  simp only [History.latest?, history, latest?, ← List.map_reverse, ← List.filter_reverse,
    List.find?_map, List.find?_filter, Option.map_map]
  congr 2
  funext w
  simp [← isCoherent_iff]

/-- An environment answers every lookup and every query as the log of its writes does. -/
theorem replay_eq_log (limit : Nat) (log : Log) (o : Operand) :
    (replay limit log).get? o = (key? log o).map (history limit log) ∧
    ((replay limit log).get? o = none ↔ ∀ w ∈ log, w.operand.text ≠ o.text) ∧
    (∀ query, ((replay limit log).get? o).bind (·.latest? query) =
      (key? log o).bind (latest? limit log · query)) ∧
    (replay limit log).resolve? o = (key? log o).bind (latest? limit log · none) ∧
    (replay limit log).tagsOf o =
      TagSet.unions ((((key? log o).bind (latest? limit log · none)).getD []).map
        SymbolicValue.tags) := by
  have hget := get?_replay limit log o
  have hquery : ∀ query, ((replay limit log).get? o).bind (·.latest? query) =
      (key? log o).bind (latest? limit log · query) := by
    intro query
    rw [hget, Option.bind_map]
    congr 1
    funext k
    exact latest?_history limit log k query
  have hresolve : (replay limit log).resolve? o =
      (key? log o).bind (latest? limit log · none) := hquery none
  refine ⟨hget, ?_, hquery, hresolve, ?_⟩
  · rw [hget, Option.map_eq_none_iff, key?_eq_none_iff]
  · rw [Environment.tagsOf, hresolve]

end Log

end Provenance
