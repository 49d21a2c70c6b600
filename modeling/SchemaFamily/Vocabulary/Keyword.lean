import SchemaFamily.Text.Number
import SchemaFamily.Vocabulary.Datatype

/-
  Keywords of the notation. Each choice that an attribute offers is a type of its own with the
  keywords it is written as; the empty text stands for the default where there is one. A text
  that is no keyword is told with the attribute and the text.
-/

namespace SchemaFamily

/-- A text that is no keyword where one is expected. -/
inductive KeywordFault where
  | datatype (value : String)
  | attribute (name value : String)
deriving DecidableEq, Repr

/-- The wording of a fault. -/
def KeywordFault.message : KeywordFault → String
  | .datatype value => s!"Unknown datatype '{value}'"
  | .attribute name value => s!"Invalid value '{value}' for attribute '{name}'"

/-- The datatype that a keyword names. -/
def Datatype.ofKeyword (s : String) : Except KeywordFault Datatype :=
  match Datatype.ofKeyword? s with
  | some d => .ok d
  | none => .error (.datatype s)

/-! ## What is defined -/

/-- The kind of a definition. -/
inductive Kind where
  | assembly
  | field
  | flag
deriving DecidableEq, Repr, Inhabited

/-- The name of a kind in messages. -/
def Kind.word : Kind → String
  | .assembly => "assembly"
  | .field => "field"
  | .flag => "flag"

/-- The place of a kind in lists: assemblies, fields, flags. -/
def Kind.rank : Kind → Nat
  | .assembly => 0
  | .field => 1
  | .flag => 2

/-! ## Groups -/

/-- How a group of values is written in the key and value notation. -/
inductive JsonGrouping where
  | singletonOrArray
  | array
  | byKey
deriving DecidableEq, Repr

/-- A group is a single value or an array unless it says otherwise. -/
instance : Inhabited JsonGrouping := ⟨.singletonOrArray⟩

/-- The keyword of a grouping. -/
def JsonGrouping.keyword : JsonGrouping → String
  | .singletonOrArray => "SINGLETON_OR_ARRAY"
  | .array => "ARRAY"
  | .byKey => "BY_KEY"

/-- The grouping of a keyword. -/
def JsonGrouping.ofKeyword : String → Except KeywordFault JsonGrouping
  | "" | "SINGLETON_OR_ARRAY" => .ok .singletonOrArray
  | "ARRAY" => .ok .array
  | "BY_KEY" => .ok .byKey
  | other => .error (.attribute "in-json" other)

/-- Whether a group has an element of its own around its values. -/
inductive XmlGrouping where
  | ungrouped
  | grouped
deriving DecidableEq, Repr

/-- A group has no element of its own unless it says otherwise. -/
instance : Inhabited XmlGrouping := ⟨.ungrouped⟩

/-- The grouping of a keyword. -/
def XmlGrouping.ofKeyword : String → Except KeywordFault XmlGrouping
  | "" | "UNGROUPED" => .ok .ungrouped
  | "GROUPED" => .ok .grouped
  | other => .error (.attribute "in-xml" other)

/-! ## Occurrences -/

/-- Whether the value of a field stands in an element of its own. -/
inductive FieldWrapping where
  | wrapped
  | unwrapped
  | withWrapper
deriving DecidableEq, Repr

/-- A field is wrapped unless it says otherwise. -/
instance : Inhabited FieldWrapping := ⟨.wrapped⟩

/-- The wrapping of a keyword. -/
def FieldWrapping.ofKeyword : String → Except KeywordFault FieldWrapping
  | "" | "WRAPPED" => .ok .wrapped
  | "UNWRAPPED" => .ok .unwrapped
  | "WITH_WRAPPER" => .ok .withWrapper
  | other => .error (.attribute "in-xml" other)

/-- How often something may occur. -/
inductive MaxOccurs where
  | bounded (count : Nat)
  | unbounded
deriving DecidableEq, Repr

/-- The bound that a text writes: a 32-bit number or `unbounded`. -/
def MaxOccurs.ofKeyword (s : String) : Except KeywordFault MaxOccurs :=
  if s = "unbounded" then .ok .unbounded
  else
    match readUnsigned 10 maxWord32 s.toList with
    | .ok count => .ok (.bounded count)
    | .error _ => .error (.attribute "max-occurs" s)

end SchemaFamily
