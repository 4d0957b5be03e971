import Provenance.Table

/-!
What a table holds after an insertion, by its entries and by its keys. Nothing here depends on the
order of the keys: an insertion only brings the new entry in and may take an old one of the same
key out.
-/

set_option autoImplicit false

namespace Provenance.Table

variable {κ α : Type}

def keys (t : Table κ α) : List κ := t.entries.map (·.1)

theorem mem_keys_of_mem {t : Table κ α} {e : κ × α} (h : e ∈ t.entries) : e.1 ∈ t.keys :=
  List.mem_map.2 ⟨e, h, rfl⟩

variable [DecidableEq κ]

theorem mem_of_findEntry {k : κ} {a : α} {entries : List (κ × α)}
    (h : findEntry k entries = some a) : (k, a) ∈ entries := by
  induction entries with
  | nil => simp [findEntry] at h
  | cons e rest ih =>
    obtain ⟨j, b⟩ := e
    by_cases hj : k = j
    · subst hj
      simp only [findEntry, if_true, Option.some.injEq] at h
      simp [h]
    · simp only [findEntry, hj, if_false] at h
      simp [ih h]

theorem mem_of_get? {t : Table κ α} {k : κ} {a : α} (h : t.get? k = some a) : (k, a) ∈ t.entries :=
  mem_of_findEntry h

theorem isSome_findEntry {k : κ} {entries : List (κ × α)} (h : k ∈ entries.map (·.1)) :
    (findEntry k entries).isSome = true := by
  induction entries with
  | nil => simp at h
  | cons e rest ih =>
    obtain ⟨j, b⟩ := e
    by_cases hj : k = j
    · simp [findEntry, hj]
    · have hrest : k ∈ rest.map (·.1) := by simpa [hj] using h
      simpa [findEntry, hj] using ih hrest

theorem isSome_get?_iff {t : Table κ α} {k : κ} : (t.get? k).isSome = true ↔ k ∈ t.keys := by
  constructor
  · intro h
    obtain ⟨a, ha⟩ := Option.isSome_iff_exists.1 h
    exact mem_keys_of_mem (mem_of_get? ha)
  · exact isSome_findEntry

variable [Ord κ]

theorem mem_insertEntry {k : κ} {a : α} {e : κ × α} {entries : List (κ × α)}
    (h : e ∈ insertEntry k a entries) : e = (k, a) ∨ e ∈ entries := by
  induction entries with
  | nil => simpa [insertEntry] using h
  | cons f rest ih =>
    obtain ⟨j, b⟩ := f
    unfold insertEntry at h
    split at h
    · rcases List.mem_cons.1 h with h | h <;> simp [h]
    · split at h
      · simpa using h
      · rcases List.mem_cons.1 h with h | h
        · simp [h]
        · rcases ih h with h | h <;> simp [h]

theorem self_mem_insertEntry (k : κ) (a : α) (entries : List (κ × α)) :
    (k, a) ∈ insertEntry k a entries := by
  induction entries with
  | nil => simp [insertEntry]
  | cons f rest ih =>
    unfold insertEntry
    split
    · simp
    · split <;> simp [ih]

theorem mem_insertEntry_of_ne {k : κ} {a : α} {e : κ × α} {entries : List (κ × α)}
    (h : e ∈ entries) (hne : e.1 ≠ k) : e ∈ insertEntry k a entries := by
  induction entries with
  | nil => simp at h
  | cons f rest ih =>
    obtain ⟨j, b⟩ := f
    unfold insertEntry
    split
    · rename_i hk
      rcases List.mem_cons.1 h with h | h
      · exact absurd (by rw [h, hk]) hne
      · simp [h]
    · split
      · simp [List.mem_cons.1 h]
      · rcases List.mem_cons.1 h with h | h
        · simp [h]
        · simp [ih h]

theorem mem_insert {t : Table κ α} {k : κ} {a : α} {e : κ × α}
    (h : e ∈ (t.insert k a).entries) : e = (k, a) ∨ e ∈ t.entries :=
  mem_insertEntry h

theorem self_mem_insert (t : Table κ α) (k : κ) (a : α) : (k, a) ∈ (t.insert k a).entries :=
  self_mem_insertEntry k a t.entries

theorem mem_insert_of_ne {t : Table κ α} {k : κ} {a : α} {e : κ × α} (h : e ∈ t.entries)
    (hne : e.1 ≠ k) : e ∈ (t.insert k a).entries :=
  mem_insertEntry_of_ne h hne

theorem mem_keys_insert {t : Table κ α} {k j : κ} {a : α} :
    j ∈ (t.insert k a).keys ↔ j = k ∨ j ∈ t.keys := by
  constructor
  · intro h
    obtain ⟨e, he, rfl⟩ := List.mem_map.1 h
    rcases mem_insert he with rfl | he
    · exact Or.inl rfl
    · exact Or.inr (mem_keys_of_mem he)
  · by_cases hj : j = k
    · subst hj
      exact fun _ => mem_keys_of_mem (self_mem_insert t j a)
    · rintro (h | h)
      · contradiction
      · obtain ⟨e, he, rfl⟩ := List.mem_map.1 h
        exact mem_keys_of_mem (mem_insert_of_ne he hj)

/-- As long as all entries follow one function of their keys, an insertion takes none of them out.
-/
theorem mem_insert_iff {t : Table κ α} {f : κ → Option α} {k : κ} {a : α}
    (ht : ∀ e ∈ t.entries, f e.1 = some e.2) (hk : f k = some a) {e : κ × α} :
    e ∈ (t.insert k a).entries ↔ e = (k, a) ∨ e ∈ t.entries := by
  constructor
  · exact mem_insert
  · rintro (rfl | he)
    · exact self_mem_insert t k a
    · by_cases hkey : e.1 = k
      · have hval : f k = some e.2 := hkey ▸ ht e he
        have heq : e = (k, a) := Prod.ext hkey (Option.some.inj (hval.symm.trans hk))
        rw [heq]
        exact self_mem_insert t k a
      · exact mem_insert_of_ne he hkey

theorem mem_foldl_insert {f : κ → Option α} {new : List (κ × α)}
    (hnew : ∀ e ∈ new, f e.1 = some e.2)
    {t : Table κ α} (ht : ∀ e ∈ t.entries, f e.1 = some e.2) {e : κ × α} :
    e ∈ (new.foldl (fun t e => t.insert e.1 e.2) t).entries ↔ e ∈ t.entries ∨ e ∈ new := by
  induction new generalizing t with
  | nil => simp
  | cons n rest ih =>
    have hn : f n.1 = some n.2 := hnew n (by simp)
    have hrest : ∀ e ∈ rest, f e.1 = some e.2 := fun e he => hnew e (by simp [he])
    have hnext : ∀ e ∈ (t.insert n.1 n.2).entries, f e.1 = some e.2 := by
      intro e he
      rcases mem_insert he with rfl | he
      · exact hn
      · exact ht e he
    rw [List.foldl_cons, ih hrest hnext, mem_insert_iff ht hn, List.mem_cons]
    constructor
    · rintro ((h | h) | h) <;> simp [h]
    · rintro (h | h | h) <;> simp [h]

end Provenance.Table
