import Provenance.Expression
import Provenance.Proofs.Documents
import Provenance.Report

set_option autoImplicit false

namespace Provenance

namespace Json

theorem whole_str (text : String) : (str text).Whole := .string (some text)

theorem whole_record {fields : List (String × Json)} (h : ∀ f ∈ fields, f.2.Whole) :
    (record fields).Whole := by
  refine .object fun m hm => ?_
  obtain ⟨f, hf, rfl⟩ := List.mem_map.1 hm
  exact h f hf

theorem whole_tagged (name : String) {contents : Json} (h : contents.Whole) :
    (tagged name contents).Whole :=
  whole_record (by simpa using h)

@[simp] def Slot.ofMember : Option Json → Slot
  | some value => .given value
  | none => .missing

theorem slotOfMembers_record {fields : List (String × Json)} (h : (fields.map Prod.fst).Nodup)
    (name : String) :
    slotOfMembers (fields.map fun f => (some f.1, f.2)) name =
      some (.ofMember (fields.lookup name)) := by
  induction fields with
  | nil => rfl
  | cons f fields ih =>
    obtain ⟨key, value⟩ := f
    obtain ⟨hfresh, hrest⟩ := List.nodup_cons.1 h
    by_cases hkey : key = name
    · subst hkey
      have hnone : (fields.map fun f => ((some f.1 : Literal), f.2)).filter
          (fun m => m.1 == some key) = [] := by
        refine List.filter_eq_nil_iff.2 fun m hm => ?_
        obtain ⟨f, hf, rfl⟩ := List.mem_map.1 hm
        have hne : f.1 ≠ key := fun heq => hfresh (List.mem_map.2 ⟨f, hf, heq⟩)
        simpa using hne
      simp [slotOfMembers, hnone, Slot.ofMember]
    · have hother : (name == key) = false := beq_eq_false_iff_ne.2 (Ne.symm hkey)
      have hrec := ih hrest
      simp only [slotOfMembers] at hrec ⊢
      simpa [hkey, List.lookup_cons, hother] using hrec

@[simp] theorem slots?_record {fields : List (String × Json)} (names : List String)
    (h : (fields.map Prod.fst).Nodup) :
    slots? names (record fields) = some (names.map fun name => .ofMember (fields.lookup name)) := by
  have hnames : (fields.map fun f => ((some f.1 : Literal), f.2)).all (·.1.isSome) = true := by simp
  simp only [slots?, record, hnames, if_true]
  induction names with
  | nil => rfl
  | cons name names ih => simp [slotOfMembers_record h, ih]

@[simp] theorem case?_tagged (name : String) (contents : Json) :
    (tagged name contents).case? = some (name, some contents) := rfl

@[simp] theorem case?_str (name : String) : (str name).case? = some (name, none) := rfl

theorem caseNamed?_str {α : Type} {all : List α} {name : α → String} {a : α}
    (h : all.find? (fun b => name b == name a) = some a) :
    caseNamed? all name (str (name a)) = some a := by
  simp [caseNamed?, isBare, h]

end Json

namespace Wire

/-- What is written for a value is read as the value. -/
class Lawful (α : Type) [Wire α] : Prop where
  whole (a : α) : (toJson a).Whole
  ofJson?_toJson (a : α) : ofJson? (toJson a) = some a

attribute [simp] Lawful.whole Lawful.ofJson?_toJson

section

variable {α : Type} [Wire α]

@[simp] theorem required_toJson [Lawful α] (a : α) :
    (Json.Slot.given (toJson a)).required = some a :=
  Lawful.ofJson?_toJson a

@[simp] theorem orElse_toJson [Lawful α] (value a : α) :
    (Json.Slot.given (toJson a)).orElse value = some a :=
  Lawful.ofJson?_toJson a

@[simp] theorem optional_toJson [Lawful (Option α)] (a : Option α) :
    (Json.Slot.given (toJson a)).optional = some a :=
  Lawful.ofJson?_toJson a

@[simp] theorem nullable_toJson [Lawful (Option α)] (a : Option α) :
    (Json.Slot.given (toJson a)).nullable = some a :=
  Lawful.ofJson?_toJson a

/-- An option is read back as long as no value is itself written as null. -/
theorem Lawful.option [Lawful α] (h : ∀ a : α, toJson a ≠ .null) : Lawful (Option α) where
  whole
    | none => .null
    | some a => Lawful.whole a
  ofJson?_toJson
    | none => rfl
    | some a => by
      show Json.orNull (toJson a) = some (some a)
      rw [Json.orNull.eq_2 _ (h a)]
      simp

end

instance : Lawful String where
  whole text := Json.whole_str text
  ofJson?_toJson _ := rfl

instance : Lawful Bool where
  whole b := .bool b
  ofJson?_toJson _ := rfl

instance : Lawful Char where
  whole c := Json.whole_str (String.singleton c)
  ofJson?_toJson c := by simp [toJson, ofJson?, Json.str]

instance : Lawful UInt64 where
  whole n := .integer n.toNat
  ofJson?_toJson n := by
    have hlt : n.toNat < UInt64.size := n.toNat_lt
    simp [toJson, ofJson?, hlt]

instance : Lawful Int64 where
  whole n := .integer n.toInt
  ofJson?_toJson n := by
    have hrange : Int64.minValue.toInt ≤ n.toInt ∧ n.toInt ≤ Int64.maxValue.toInt :=
      ⟨n.minValue_le_toInt, n.toInt_le⟩
    show (if _ then some (Int64.ofInt n.toInt) else none) = some n
    rw [if_pos hrange, Int64.ofInt_toInt]

instance {α : Type} [Wire α] [Lawful α] : Lawful (List α) where
  whole items := by
    refine .array fun j hj => ?_
    obtain ⟨a, -, rfl⟩ := List.mem_map.1 hj
    exact Lawful.whole a
  ofJson?_toJson items := by
    show (items.map toJson).mapM ofJson? = some items
    induction items with
    | nil => rfl
    | cons a items ih => simp [ih]

instance : Lawful Method where
  whole m := Json.whole_record (by simp)
  ofJson?_toJson m := by
    show ofJson? (Json.record _) = _
    simp [ofJson?, List.lookup_cons]

instance : Lawful Operator where
  whole o := Json.whole_str o.name
  ofJson?_toJson o := Json.caseNamed?_str (by cases o <;> rfl)

instance : Lawful Constant where
  whole c := by
    cases c with
    | char c => exact Json.whole_tagged _ (Lawful.whole c)
    | double bits => exact Json.whole_tagged _ (Lawful.whole bits)
    | int n => exact Json.whole_tagged _ (Lawful.whole n)
    | str s => exact Json.whole_tagged _ (Lawful.whole s)
    | falseLiteral => exact Json.whole_str _
    | null => exact Json.whole_str _
    | trueLiteral => exact Json.whole_str _
  ofJson?_toJson c := by
    cases c with
    | char c => exact congrArg (Option.map Constant.char) (Lawful.ofJson?_toJson c)
    | double bits => exact congrArg (Option.map Constant.double) (Lawful.ofJson?_toJson bits)
    | int n => exact congrArg (Option.map Constant.int) (Lawful.ofJson?_toJson n)
    | str s => exact congrArg (Option.map Constant.str) (Lawful.ofJson?_toJson s)
    | falseLiteral => rfl
    | null => rfl
    | trueLiteral => rfl

instance : Lawful Operand where
  whole o := by
    cases o with
    | named name type => exact Json.whole_tagged _ (Json.whole_record (by simp))
    | literal c => exact Json.whole_tagged _ (Lawful.whole c)
    | returnSlot => exact Json.whole_str _
  ofJson?_toJson o := by
    cases o with
    | named name type =>
      show ofJson? (Json.tagged "Local" (.record _)) = _
      simp [ofJson?, List.lookup_cons]
    | literal c => exact congrArg (Option.map Operand.literal) (Lawful.ofJson?_toJson c)
    | returnSlot => rfl

instance : Lawful Condition where
  whole c := Lawful.whole c.text
  ofJson?_toJson c := congrArg (Option.map Condition.mk) (Lawful.ofJson?_toJson c.text)

instance : Lawful (Option Operand) := .option fun o => by cases o <;> exact nofun

instance : Lawful (Option Condition) := .option fun _ => nofun

instance : Lawful Expression where
  whole e := by
    cases e with
    | binary left operator right => exact Json.whole_tagged _ (Json.whole_record (by simp))
    | constant c => exact Json.whole_tagged _ (Lawful.whole c)
    | field base name => exact Json.whole_tagged _ (Json.whole_record (by simp))
    | call method receiver arguments => exact Json.whole_tagged _ (Json.whole_record (by simp))
    | object className arguments => exact Json.whole_tagged _ (Json.whole_record (by simp))
    | returned o => exact Json.whole_tagged _ (Lawful.whole o)
    | unknown annotations => exact Json.whole_tagged _ (Json.whole_record (by simp))
    | symbol o => exact Json.whole_tagged _ (Lawful.whole o)
  ofJson?_toJson e := by
    cases e with
    | binary left operator right =>
      show ofJson? (Json.tagged "BinaryOperation" (.record _)) = _
      simp [ofJson?, List.lookup_cons]
    | constant c => exact congrArg (Option.map Expression.constant) (Lawful.ofJson?_toJson c)
    | field base name =>
      show ofJson? (Json.tagged "Field" (.record _)) = _
      simp [ofJson?, List.lookup_cons]
    | call method receiver arguments =>
      show ofJson? (Json.tagged "MethodRepresentation" (.record _)) = _
      simp [ofJson?, List.lookup_cons]
    | object className arguments =>
      show ofJson? (Json.tagged "Object" (.record _)) = _
      simp [ofJson?, List.lookup_cons]
    | returned o => exact congrArg (Option.map Expression.returned) (Lawful.ofJson?_toJson o)
    | unknown annotations =>
      show ofJson? (Json.tagged "Unknown" (.record _)) = _
      simp [ofJson?, List.lookup_cons]
    | symbol o => exact congrArg (Option.map Expression.symbol) (Lawful.ofJson?_toJson o)

instance : Lawful Instruction where
  whole i := by cases i <;> exact Json.whole_tagged _ (Json.whole_record (by simp))
  ofJson?_toJson i := by
    cases i with
    | identity target parameter =>
      show ofJson? (Json.tagged "Identity" (.record _)) = _
      simp [ofJson?, List.lookup_cons]
    | assign target source =>
      show ofJson? (Json.tagged "Assign" (.record _)) = _
      simp [ofJson?, List.lookup_cons]
    | fieldRead target base field =>
      show ofJson? (Json.tagged "FieldRead" (.record _)) = _
      simp [ofJson?, List.lookup_cons]
    | binary target operator left right =>
      show ofJson? (Json.tagged "BinaryOperation" (.record _)) = _
      simp [ofJson?, List.lookup_cons]
    | create target className =>
      show ofJson? (Json.tagged "New" (.record _)) = _
      simp [ofJson?, List.lookup_cons]
    | invoke result method receiver arguments =>
      show ofJson? (Json.tagged "Invoke" (.record _)) = _
      simp [ofJson?, List.lookup_cons]
    | giveBack value =>
      show ofJson? (Json.tagged "Return" (.record _)) = _
      simp [ofJson?, List.lookup_cons]

instance : Lawful Statement where
  whole s := Json.whole_record (by simp)
  ofJson?_toJson s := by
    show ofJson? (Json.record _) = _
    simp [ofJson?, List.lookup_cons]

instance : Lawful Body where
  whole b := Json.whole_record (by simp)
  ofJson?_toJson b := by
    show ofJson? (Json.record _) = _
    simp [ofJson?, List.lookup_cons]

instance : Lawful Program where
  whole p := Json.whole_record (by simp)
  ofJson?_toJson p := by
    show ofJson? (Json.record _) = _
    simp [ofJson?, List.lookup_cons]

instance : Lawful Flow where
  whole f := Json.whole_record (by simp)
  ofJson?_toJson f := by
    show ofJson? (Json.record _) = _
    simp [ofJson?, List.lookup_cons]

instance : Lawful ReportedValue where
  whole v := Json.whole_record (by split <;> simp)
  ofJson?_toJson v := by
    obtain ⟨value, tags⟩ := v
    cases tags with
    | nil =>
      show ofJson? (Json.record [("value", toJson value)]) = _
      simp [ofJson?, List.lookup_cons, Json.Slot.orElse]
    | cons tag tags =>
      show ofJson? (Json.record [("value", toJson value), ("tags", toJson (tag :: tags))]) = _
      simp [ofJson?, List.lookup_cons]

instance : Lawful Summary where
  whole s := Json.whole_record (by simp)
  ofJson?_toJson s := by
    show ofJson? (Json.record _) = _
    simp [ofJson?, List.lookup_cons]

instance : Lawful Report where
  whole r := Json.whole_record (by simp)
  ofJson?_toJson r := by
    show ofJson? (Json.record _) = _
    simp [ofJson?, List.lookup_cons]

section

variable {α : Type} [Wire α] [Lawful α]

theorem read?_compact (a : α) : read? α (toJson a).compact = some a := by
  simp [read?, Json.parse?_compact (Lawful.whole a)]

theorem read?_pretty (a : α) : read? α (toJson a).pretty = some a := by
  simp [read?, Json.parse?_pretty (Lawful.whole a)]

end

/-- Both layouts of a value are read as the value. So no two values share a text, and what was read
from any text at all can be written and read again. -/
structure RoundTrips (α : Type) [Wire α] : Prop where
  compact (a : α) : read? α (toJson a).compact = some a
  pretty (a : α) : read? α (toJson a).pretty = some a
  compact_injective : Function.Injective fun a : α => (toJson a).compact
  pretty_injective : Function.Injective fun a : α => (toJson a).pretty
  reread (text : String) : ∀ a, read? α text = some a →
    read? α (toJson a).compact = read? α text ∧ read? α (toJson a).pretty = read? α text

theorem Lawful.roundTrips {α : Type} [Wire α] [Lawful α] : RoundTrips α where
  compact := read?_compact
  pretty := read?_pretty
  compact_injective a b h := by
    have hread := congrArg (read? α) h
    simpa [read?_compact] using hread
  pretty_injective a b h := by
    have hread := congrArg (read? α) h
    simpa [read?_pretty] using hread
  reread text a h := by simp [h, read?_compact, read?_pretty]

/-- Programs, reports and all their parts survive the wire. -/
theorem texts_read_back :
    (∀ p : Program, Program.load? (toJson p).compact = some p) ∧
    (RoundTrips Program ∧ RoundTrips Body ∧ RoundTrips Statement ∧ RoundTrips Instruction ∧
      RoundTrips Method ∧ RoundTrips Expression ∧ RoundTrips Operand ∧ RoundTrips Constant) ∧
    (RoundTrips Report ∧ RoundTrips Summary ∧ RoundTrips Flow ∧ RoundTrips ReportedValue) ∧
    ∀ value, toJson (⟨value, []⟩ : ReportedValue) = .record [("value", toJson value)] := by
  refine ⟨fun p => read?_compact p, ?_, ?_, fun _ => rfl⟩
  · exact ⟨Lawful.roundTrips, Lawful.roundTrips, Lawful.roundTrips, Lawful.roundTrips,
      Lawful.roundTrips, Lawful.roundTrips, Lawful.roundTrips, Lawful.roundTrips⟩
  · exact ⟨Lawful.roundTrips, Lawful.roundTrips, Lawful.roundTrips, Lawful.roundTrips⟩

end Wire

end Provenance
