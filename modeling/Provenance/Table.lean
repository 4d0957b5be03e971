set_option autoImplicit false

namespace Provenance

structure Table (κ α : Type) where
  entries : List (κ × α)

namespace Table

variable {κ α : Type}

def empty : Table κ α := ⟨[]⟩

instance : Inhabited (Table κ α) := ⟨empty⟩

def size (t : Table κ α) : Nat := t.entries.length

def isEmpty (t : Table κ α) : Bool := t.entries.isEmpty

variable [DecidableEq κ]

def findEntry (k : κ) : List (κ × α) → Option α
  | [] => none
  | (j, a) :: rest => if k = j then some a else findEntry k rest

def get? (t : Table κ α) (k : κ) : Option α := findEntry k t.entries

@[simp] theorem get?_empty (k : κ) : (empty : Table κ α).get? k = none := rfl

variable [Ord κ]

def insertEntry (k : κ) (a : α) : List (κ × α) → List (κ × α)
  | [] => [(k, a)]
  | (j, b) :: rest =>
    if k = j then (k, a) :: rest
    else if compare k j = .lt then (k, a) :: (j, b) :: rest
    else (j, b) :: insertEntry k a rest

def insert (t : Table κ α) (k : κ) (a : α) : Table κ α := ⟨insertEntry k a t.entries⟩

theorem findEntry_insertEntry (k j : κ) (a : α) (entries : List (κ × α)) :
    findEntry j (insertEntry k a entries) = if j = k then some a else findEntry j entries := by
  induction entries with
  | nil => simp [insertEntry, findEntry]
  | cons e rest ih =>
    obtain ⟨i, b⟩ := e
    by_cases hk : k = i
    · subst hk
      by_cases h : j = k <;> simp [insertEntry, findEntry, h]
    · by_cases hlt : compare k i = .lt
      · simp [insertEntry, findEntry, hk, hlt]
      · by_cases h : j = i
        · have hj : ¬ i = k := fun e => hk e.symm
          simp [insertEntry, findEntry, hk, hlt, h, hj]
        · simp [insertEntry, findEntry, hk, hlt, h, ih]

theorem get?_insert (t : Table κ α) (k j : κ) (a : α) :
    (t.insert k a).get? j = if j = k then some a else t.get? j :=
  findEntry_insertEntry k j a t.entries

end Table

end Provenance
