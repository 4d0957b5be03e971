import Mathlib.Algebra.BigOperators.Ring.List
import Mathlib.Algebra.Order.BigOperators.Group.List
import Mathlib.Algebra.Order.Ring.Nat
import Provenance.Proofs.Built

/-!
The size of a value against the number of values that it unfolds to. Below the limit a size is the
exact count. At the limit a value either still has its snapshot, and the count is exact, or it has
lost it, and then its size keeps every value over it from having one. So no value ever unfolds to
more values than the limit allows.
-/

set_option autoImplicit false

namespace Provenance

namespace Snapshot

def values (s : Snapshot) : List SymbolicValue := s.entries.flatMap (·.2)

theorem mem_values {s : Snapshot} {w : SymbolicValue} :
    w ∈ values s ↔ ∃ entry ∈ s.entries, w ∈ entry.2 := List.mem_flatMap

theorem size_eq_sum (s : Snapshot) : size s = ((values s).map SymbolicValue.size).sum := by
  rw [List.sum_eq_foldr, List.foldr_map]
  rfl

theorem le_sum (weight : SymbolicValue → Nat) {s : Snapshot}
    {entry : Operand × List SymbolicValue} (he : entry ∈ s.entries) {w : SymbolicValue}
    (hw : w ∈ entry.2) : weight w ≤ ((values s).map weight).sum :=
  List.le_sum_of_mem (List.mem_map_of_mem (mem_values.2 ⟨entry, he, hw⟩))

def counterLimit : Nat := UInt64.size - 1

/-- The size as a counter of 64 bits shows it, which stays where it is at its greatest number. -/
def counted (s : Snapshot) : Nat :=
  (values s).foldl (fun n v => min (n + v.size) counterLimit) 0

theorem foldl_counter (values : List SymbolicValue) (n : Nat) :
    values.foldl (fun n v => min (n + v.size) counterLimit) (min n counterLimit) =
      min (n + (values.map SymbolicValue.size).sum) counterLimit := by
  induction values generalizing n with
  | nil => simp
  | cons v rest ih =>
    have hstep : min (min n counterLimit + v.size) counterLimit =
        min (n + v.size) counterLimit := by
      omega
    rw [List.foldl_cons, hstep, ih, List.map_cons, List.sum_cons, Nat.add_assoc]

theorem counted_eq (s : Snapshot) : counted s = min (size s) counterLimit := by
  have hfold := foldl_counter (values s) 0
  rwa [Nat.zero_min, Nat.zero_add, ← size_eq_sum] at hfold

end Snapshot

namespace SymbolicValue

mutual

/-- How many values a value unfolds to: itself, and what the values in its snapshot unfold to. -/
def nodes : SymbolicValue → Nat
  | ⟨_, _, _, ⟨entries⟩⟩ => entryNodes entries + 1

def entryNodes : List (Operand × List SymbolicValue) → Nat
  | [] => 0
  | (_, values) :: rest => valueNodes values + entryNodes rest

def valueNodes : List SymbolicValue → Nat
  | [] => 0
  | v :: rest => nodes v + valueNodes rest

end

theorem valueNodes_eq (values : List SymbolicValue) :
    valueNodes values = (values.map nodes).sum := by
  induction values with
  | nil => rfl
  | cons v rest ih => rw [valueNodes, ih, List.map_cons, List.sum_cons]

theorem entryNodes_eq (entries : List (Operand × List SymbolicValue)) :
    entryNodes entries = ((entries.flatMap (·.2)).map nodes).sum := by
  induction entries with
  | nil => rfl
  | cons e rest ih =>
    obtain ⟨o, values⟩ := e
    rw [entryNodes, ih, valueNodes_eq, List.flatMap_cons, List.map_append, List.sum_append]

theorem nodes_eq (v : SymbolicValue) :
    v.nodes = ((Snapshot.values v.snapshot).map nodes).sum + 1 := by
  obtain ⟨e, n, ts, ⟨entries⟩⟩ := v
  rw [nodes, entryNodes_eq]
  rfl

theorem nodes_congr {v w : SymbolicValue} (h : v.snapshot = w.snapshot) : v.nodes = w.nodes := by
  rw [nodes_eq, nodes_eq, h]

/-- Each snapshot on the way to a value counts for one node at least. -/
theorem nodes_of_within {depth : Nat} {w v : SymbolicValue} (h : Within depth w v) :
    depth + w.nodes ≤ v.nodes := by
  induction h with
  | @here v w entry he hw =>
    have hle := Snapshot.le_sum nodes he hw
    rw [nodes_eq v]
    omega
  | @deeper depth v u w entry he hu h ih =>
    have hle := Snapshot.le_sum nodes he hu
    rw [nodes_eq v]
    omega

/-- The limit on sizes is so low that it makes no difference whether a counter stops or not. -/
theorem make_eq_of_counter (order : Enumeration) (e : Expression) (s : Snapshot) :
    let n := min (Snapshot.counted s + 1) Snapshot.counterLimit
    @make order e s =
      ⟨e, min n sizeLimit, @Snapshot.tags order s, if sizeLimit < n then .empty else s⟩ := by
  intro n
  have hn : n = min (min (Snapshot.size s) Snapshot.counterLimit + 1) Snapshot.counterLimit := by
    rw [← Snapshot.counted_eq]
  have hlimits : sizeLimit < Snapshot.counterLimit := by decide
  have hsize : min n sizeLimit = min (Snapshot.size s + 1) sizeLimit := by omega
  have hdropped : sizeLimit < n ↔ sizeLimit < Snapshot.size s + 1 := by omega
  rw [make, hsize]
  simp only [hdropped]

def IsCut (v : SymbolicValue) : Prop := v.snapshot.entries = [] ∧ v.size = sizeLimit

theorem isCut_make_iff (order : Enumeration) (e : Expression) (s : Snapshot) :
    (@make order e s).IsCut ↔ sizeLimit < Snapshot.size s + 1 := by
  by_cases hlarge : sizeLimit < Snapshot.size s + 1
  · have hmin : min (Snapshot.size s + 1) sizeLimit = sizeLimit := by omega
    simp [IsCut, make, hlarge, hmin, Table.empty]
  · -- A snapshot that was not dropped is empty only if the size is one.
    have hnot : ¬ (@make order e s).IsCut := by
      rintro ⟨hempty, hsize⟩
      have hnone : s.entries = [] := by simpa [make, hlarge] using hempty
      have hzero : Snapshot.size s = 0 := by simp [Snapshot.size, hnone]
      simp [make, hzero, sizeLimit] at hsize
    exact iff_of_false hnot hlarge

theorem isCut_make_of_mem (order : Enumeration) (e : Expression) {s : Snapshot}
    {entry : Operand × List SymbolicValue} (he : entry ∈ s.entries) {w : SymbolicValue}
    (hw : w ∈ entry.2) (hcut : w.IsCut) : (@make order e s).IsCut := by
  have hle := Snapshot.le_sum SymbolicValue.size he hw
  rw [← Snapshot.size_eq_sum, hcut.2] at hle
  rw [isCut_make_iff]
  omega

structure Sized (v : SymbolicValue) : Prop where
  pos : 1 ≤ v.size
  le_limit : v.size ≤ sizeLimit
  counted : v.size = v.nodes ∨ v.IsCut

theorem Sized.congr {v w : SymbolicValue} (h : v.Sized) (hsize : w.size = v.size)
    (hsnapshot : w.snapshot = v.snapshot) : w.Sized := by
  obtain ⟨hpos, hle, hcounted⟩ := h
  refine ⟨by omega, by omega, ?_⟩
  rwa [hsize, nodes_congr hsnapshot, IsCut, hsnapshot, hsize]

theorem Sized.make (order : Enumeration) (e : Expression) {s : Snapshot}
    (h : ∀ entry ∈ s.entries, ∀ w ∈ entry.2, w.Sized) : (@make order e s).Sized := by
  have hsize : (@SymbolicValue.make order e s).size = min (Snapshot.size s + 1) sizeLimit := rfl
  have hlimit : sizeLimit = 1000 := rfl
  refine ⟨by omega, by omega, ?_⟩
  by_cases hlarge : sizeLimit < Snapshot.size s + 1
  · exact Or.inr ((isCut_make_iff order e s).2 hlarge)
  · -- The whole snapshot is below the limit, so every value in it is, and is counted exactly.
    have hexact : ∀ entry ∈ s.entries, ∀ w ∈ entry.2, w.size = w.nodes := by
      intro entry he w hw
      have hle := Snapshot.le_sum SymbolicValue.size he hw
      rw [← Snapshot.size_eq_sum] at hle
      rcases (h entry he w hw).counted with hcounted | hcut
      · exact hcounted
      · have hcutsize := hcut.2
        omega
    have hkept : (@SymbolicValue.make order e s).snapshot = s := by
      simp [SymbolicValue.make, hlarge]
    have hsum : (Snapshot.values s).map SymbolicValue.size = (Snapshot.values s).map nodes := by
      apply List.map_congr_left
      intro w hw
      obtain ⟨entry, he, hw⟩ := Snapshot.mem_values.1 hw
      exact hexact entry he w hw
    left
    rw [nodes_eq, hkept, hsize, Snapshot.size_eq_sum, ← hsum]
    rw [Snapshot.size_eq_sum] at hlarge
    omega

theorem Built.sized {v : SymbolicValue} (h : v.Built) : v.Sized := by
  induction h with
  | make order e held ih => exact .make order e ih
  | annotate note h ih => exact ih.congr (by simp) (by simp)
  | addTag t h ih => exact ih.congr rfl rfl
  | addTags ts h ih => exact ih.congr rfl rfl

theorem Sized.nodes_le {v : SymbolicValue} (h : v.Sized) : v.nodes ≤ sizeLimit := by
  rcases h.counted with hcounted | ⟨hempty, _⟩
  · rw [← hcounted]
    exact h.le_limit
  · rw [nodes_eq, Snapshot.values, hempty]
    decide

/-- Sizes are exact. Every value that can be made has a size from 1 to 1000, which is the number of
values that it unfolds to, or it has no snapshot and size 1000. So no value unfolds to more than
1000 values or holds a value 1000 snapshots deep, and over a value that lost its snapshot none is
kept. Writes and recognizers turn values that can be made into such values, so a visit meets no
others. -/
theorem size_exact :
    (∀ v : SymbolicValue, v.Built →
      1 ≤ v.size ∧ v.size ≤ 1000 ∧
      (v.size = v.nodes ∨ v.snapshot.entries = [] ∧ v.size = 1000) ∧
      v.nodes ≤ 1000 ∧ ∀ depth w, Within depth w v → depth < 1000) ∧
    (∀ (order : Enumeration) (e : Expression) (s : Snapshot),
      ∀ entry ∈ s.entries, ∀ w ∈ entry.2, w.IsCut → (@make order e s).IsCut) ∧
    (∀ (env : Environment) (o : Operand) (values : List SymbolicValue)
      (condition : Option Condition),
      env.Built → AllBuilt values → (env.update o values condition).Built) ∧
    (∀ [Enumeration] (env : Environment) (call : CallSite) (values : List SymbolicValue),
      env.Built → Chain.recognize Recognizer.standard call env = .ok (some values) →
        AllBuilt values) ∧
    ∀ [Enumeration] (names : KnownName.Cache) (limit : Nat) (body : Body) (n : Nat),
      (Visit.upTo Recognizer.standard names limit body n).Built := by
  refine ⟨?_, ?_, ?_, ?_, ?_⟩
  · intro v hbuilt
    have hsized := hbuilt.sized
    have hnodes := hsized.nodes_le
    refine ⟨hsized.pos, hsized.le_limit, hsized.counted, hnodes, ?_⟩
    intro depth w hwithin
    have hdepth := nodes_of_within hwithin
    have hpos : 1 ≤ w.nodes := by
      rw [nodes_eq]
      omega
    have hlimit : sizeLimit = 1000 := rfl
    omega
  · intro order e s entry he w hw hcut
    exact isCut_make_of_mem order e he hw hcut
  · intro env o values condition henv hvalues
    exact henv.update o hvalues condition
  · intro _ env call values henv hanswer
    have hbuilt := Chain.allBuilt_recognize Recognizer.builds_standard henv call
    rw [hanswer] at hbuilt
    exact hbuilt
  · intro _ names limit body n
    exact Visit.built_upTo Recognizer.builds_standard names limit body n

def crowd (n : Nat) : SymbolicValue :=
  let o := Operand.named "x" "int"
  @make .ascending (.object "Crowd" [o]) ⟨[(o, List.replicate n (.symbol o))]⟩

theorem built_crowd (n : Nat) : (crowd n).Built := by
  refine .make .ascending _ ?_
  intro entry he w hw
  rw [List.mem_singleton.1 he] at hw
  rw [List.eq_of_mem_replicate hw]
  exact built_leaf _

/-- At 1000 the snapshot is still there, at 1001 it is dropped, and so is the one of a value over
it. -/
theorem size_exact_of_crowds :
    (crowd 999).size = (crowd 999).nodes ∧ (crowd 999).nodes = 1000 ∧ (crowd 1000).IsCut ∧
      (@make .ascending (.field (.named "y" "Crowd") "size")
        ⟨[(.named "y" "Crowd", [crowd 1000])]⟩).IsCut := by
  obtain ⟨hexact, hcontagious, _⟩ := size_exact
  have hsize : (crowd 999).size = 1000 := by decide +kernel
  have hkept : (crowd 999).snapshot.entries ≠ [] := by decide +kernel
  have hcut : (crowd 1000).IsCut := ⟨by decide +kernel, by decide +kernel⟩
  obtain ⟨_, _, hcounted, _⟩ := hexact (crowd 999) (built_crowd 999)
  have heq : (crowd 999).size = (crowd 999).nodes := hcounted.resolve_right fun h => hkept h.1
  exact ⟨heq, heq.symm.trans hsize, hcut,
    hcontagious .ascending _ _ _ (List.mem_singleton_self _) _ (List.mem_singleton_self _) hcut⟩

end SymbolicValue

end Provenance
