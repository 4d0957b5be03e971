set_option autoImplicit false

namespace Provenance

abbrev Tag := String

structure TagSet where
  toList : List Tag
  nodup : toList.Nodup
  deriving DecidableEq

namespace TagSet

@[ext] theorem ext {a b : TagSet} (h : a.toList = b.toList) : a = b := by
  cases a; cases b; cases h; rfl

def empty : TagSet := ⟨[], List.nodup_nil⟩

instance : Inhabited TagSet := ⟨empty⟩

@[simp] theorem toList_empty : empty.toList = [] := rfl

def isEmpty (s : TagSet) : Bool := s.toList.isEmpty

def size (s : TagSet) : Nat := s.toList.length

def contains (s : TagSet) (t : Tag) : Bool := s.toList.contains t

instance : Membership Tag TagSet := ⟨fun s t => t ∈ s.toList⟩

theorem mem_toList {s : TagSet} {t : Tag} : t ∈ s.toList ↔ t ∈ s := Iff.rfl

instance (t : Tag) (s : TagSet) : Decidable (t ∈ s) :=
  inferInstanceAs (Decidable (t ∈ s.toList))

/-- A new tag goes to the end; one that is there keeps its place. -/
def insert (s : TagSet) (t : Tag) : TagSet :=
  if h : t ∈ s.toList then s
  else ⟨s.toList ++ [t], by
    refine List.nodup_append.2 ⟨s.nodup, by simp, ?_⟩
    intro a ha b hb
    simp only [List.mem_singleton] at hb
    rintro rfl
    exact h (hb ▸ ha)⟩

theorem toList_insert (s : TagSet) (t : Tag) :
    (s.insert t).toList = if t ∈ s.toList then s.toList else s.toList ++ [t] := by
  unfold insert
  split <;> simp_all

@[simp] theorem mem_insert {s : TagSet} {t u : Tag} : u ∈ s.insert t ↔ u ∈ s ∨ u = t := by
  simp only [← mem_toList, toList_insert]
  split
  · constructor
    · exact Or.inl
    · rintro (h | rfl) <;> assumption
  · simp

def singleton (t : Tag) : TagSet := empty.insert t

def union (a b : TagSet) : TagSet := b.toList.foldl insert a

theorem mem_foldl_insert {u : Tag} (ts : List Tag) (s : TagSet) :
    u ∈ ts.foldl insert s ↔ u ∈ s ∨ u ∈ ts := by
  induction ts generalizing s with
  | nil => simp
  | cons t ts ih => simp [ih, or_assoc]

@[simp] theorem mem_union {a b : TagSet} {u : Tag} : u ∈ a.union b ↔ u ∈ a ∨ u ∈ b :=
  mem_foldl_insert b.toList a

def subset (a b : TagSet) : Bool := a.toList.all b.contains

theorem subset_iff {a b : TagSet} : a.subset b = true ↔ ∀ t ∈ a, t ∈ b := by
  simp [subset, contains, mem_toList]

def unions (sets : List TagSet) : TagSet := sets.foldl union empty

theorem mem_foldl_union {u : Tag} (sets : List TagSet) (s : TagSet) :
    u ∈ sets.foldl union s ↔ u ∈ s ∨ ∃ b ∈ sets, u ∈ b := by
  induction sets generalizing s with
  | nil => simp
  | cons b sets ih => simp [ih, or_assoc]

@[simp] theorem not_mem_empty {u : Tag} : ¬ u ∈ empty := by
  simp [← mem_toList]

@[simp] theorem mem_unions {u : Tag} {sets : List TagSet} :
    u ∈ unions sets ↔ ∃ b ∈ sets, u ∈ b := by
  simp [unions, mem_foldl_union]

def text (s : TagSet) : String := "|".intercalate s.toList

instance : Ord TagSet := ⟨fun a b => compare a.toList b.toList⟩

end TagSet

def Tag.smsBody : Tag := "#sms/#body"

def Tag.smsSender : Tag := "#sms/#sender"

end Provenance
