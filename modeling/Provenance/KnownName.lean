import Provenance.Program
import Provenance.TagSet

set_option autoImplicit false

namespace Provenance

inductive KnownName where
  | unmodelled
  | format
  | smsDisplayBody
  | smsDisplaySender
  | smsBody
  | smsSender
  | append
  | concat
  | construct
  | substring
  | toLowerCase
  | toText
  | valueOf
  deriving DecidableEq, Ord

namespace KnownName

def all : List KnownName :=
  [.unmodelled, .format, .smsDisplayBody, .smsDisplaySender, .smsBody, .smsSender, .append,
   .concat, .construct, .substring, .toLowerCase, .toText, .valueOf]

def name : KnownName → String
  | .unmodelled => "None"
  | .format => "Format"
  | .smsDisplayBody => "SmsGetDisplayMessageBody"
  | .smsDisplaySender => "SmsGetDisplayOriginatingAddress"
  | .smsBody => "SmsGetMessageBody"
  | .smsSender => "SmsGetOriginatingAddress"
  | .append => "StringAppend"
  | .concat => "StringConcat"
  | .construct => "StringInit"
  | .substring => "StringSubstring"
  | .toLowerCase => "StringToLowerCase"
  | .toText => "StringToString"
  | .valueOf => "StringValueOf"

def sourceTag? : KnownName → Option Tag
  | .smsBody | .smsDisplayBody => some .smsBody
  | .smsSender | .smsDisplaySender => some .smsSender
  | _ => none

def updatesReceiver : KnownName → Bool
  | .append | .construct => true
  | _ => false

def stringClass : String := "java.lang.String"

def builderClasses : List String := ["java.lang.StringBuilder", "java.lang.StringBuffer"]

def messageClasses : List String :=
  ["android.telephony.SmsMessage", "android.telephony.gsm.SmsMessage"]

def ofString : String → Option KnownName
  | "<init>" => some .construct
  | "toString" => some .toText
  | "concat" => some .concat
  | "substring" => some .substring
  | "toLowerCase" => some .toLowerCase
  | "valueOf" => some .valueOf
  | _ => none

def ofBuilder : String → Option KnownName
  | "<init>" => some .construct
  | "toString" => some .toText
  | "append" => some .append
  | _ => none

def ofMessage : String → Option KnownName
  | "getMessageBody" => some .smsBody
  | "getDisplayMessageBody" => some .smsDisplayBody
  | "getOriginatingAddress" => some .smsSender
  | "getDisplayOriginatingAddress" => some .smsDisplaySender
  | _ => none

end KnownName

def Method.modelled? (m : Method) : Option KnownName :=
  if m.className = KnownName.stringClass then KnownName.ofString m.name
  else if m.className ∈ KnownName.builderClasses then KnownName.ofBuilder m.name
  else if m.className ∈ KnownName.messageClasses then KnownName.ofMessage m.name
  else none

/-- A method called `format` is known in any class; whether it formats dates depends on the
receiver of the call. -/
def Method.knownName (m : Method) : KnownName :=
  m.modelled?.getD (if m.name = "format" then .format else .unmodelled)

def isDateFormatType (type : String) : Bool :=
  ["android.icu.text.DateFormat", "android.icu.text.SimpleDateFormat",
   "java.text.DateFormat", "java.text.SimpleDateFormat"].contains type

/-- The names that were looked up before. Every entry is what a new lookup would give. -/
structure KnownName.Cache where
  entries : List (Method × KnownName)
  sound : ∀ e ∈ entries, e.2 = e.1.knownName

namespace KnownName.Cache

def empty : Cache := ⟨[], by simp⟩

instance : Inhabited Cache := ⟨empty⟩

def lookup (c : Cache) (m : Method) : KnownName × Cache :=
  match c.entries.find? (fun e => e.1 == m) with
  | some e => (e.2, c)
  | none => (m.knownName, ⟨(m, m.knownName) :: c.entries, by
      intro e he
      rcases List.mem_cons.1 he with rfl | h
      · rfl
      · exact c.sound e h⟩)

@[simp] theorem lookup_fst (c : Cache) (m : Method) : (c.lookup m).1 = m.knownName := by
  unfold lookup
  split
  next e h =>
    have hm := List.find?_some h
    have hs := c.sound e (List.mem_of_find?_eq_some h)
    simp_all
  next => rfl

end KnownName.Cache

instance : Wire KnownName where
  toJson n := .str n.name
  ofJson? := Json.caseNamed? KnownName.all KnownName.name

end Provenance
