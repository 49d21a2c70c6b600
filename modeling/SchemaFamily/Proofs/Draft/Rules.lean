import Mathlib.Algebra.GroupWithZero.Nat
import Mathlib.Data.List.DropRight
import SchemaFamily.Draft.Reading

/-
  What the notation asks of a document. A `Rule` asks something of the attributes of one element
  (`Rule.Holds`), and where it applies is told by what an element stands for: `Defines` are the
  elements that are definitions, `UsesFlag` and `UsesInModel` those that are usages, and `Asks` puts
  the rules to them. The document is `Valid` when all that is asked holds. Attributes that nothing
  asks about may hold anything, and so may elements that stand for nothing.
-/

namespace SchemaFamily

open Xml

/-! ## Numbers -/

/-- The text writes a number of at most `bound` in decimal digits, with or without a plus sign. -/
def WritesNumber (bound : Nat) (text : List Char) : Prop :=
  ∃ digits, (text = digits ∨ text = '+' :: digits) ∧ digits ≠ [] ∧
    (∀ c ∈ digits, c.isDigit = true) ∧ Nat.ofDigitChars 10 digits 0 ≤ bound

theorem digitValue?_ten (c : Char) :
    digitValue? 10 c = if c.isDigit = true then some (c.toNat - '0'.toNat) else none := by
  have hdigit : c.isDigit = true ↔ '0' ≤ c ∧ c ≤ '9' := by
    simp only [Char.isDigit, Bool.and_eq_true, decide_eq_true_eq]
    exact Iff.rfl
  unfold digitValue?
  dsimp only
  split
  · next h =>
    have hle : c.toNat ≤ '9'.toNat := h.2
    rw [if_pos (hdigit.2 h), Option.filter_some, if_pos]
    exact decide_eq_true (by simp at *; omega)
  · next h =>
    -- the letters stand for ten and up
    rw [if_neg fun hd => h (hdigit.1 hd)]
    split
    · rw [Option.filter_some, if_neg]
      simp
    · split
      · rw [Option.filter_some, if_neg]
        simp
      · rfl

/-- More digits make a number no smaller. -/
theorem le_ofDigitChars (digits : List Char) (value : Nat) :
    value ≤ Nat.ofDigitChars 10 digits value := by
  induction digits generalizing value with
  | nil => exact Nat.le_refl _
  | cons c later ih =>
    rw [Nat.ofDigitChars_cons]
    exact Nat.le_trans (by omega) (ih _)

theorem readDigits_ok_iff {bound value n : Nat} {text : List Char} (h : value ≤ bound) :
    readDigits 10 bound value text = .ok n ↔ (∀ c ∈ text, c.isDigit = true) ∧
      n = Nat.ofDigitChars 10 text value ∧ n ≤ bound := by
  induction text generalizing value with
  | nil =>
    simp only [readDigits, Nat.ofDigitChars_nil, Except.ok.injEq]
    constructor
    · rintro rfl
      exact ⟨by simp, rfl, h⟩
    · rintro ⟨_, rfl, _⟩
      rfl
  | cons c later ih =>
    rw [readDigits, digitValue?_ten, List.forall_mem_cons, Nat.ofDigitChars_cons, Nat.mul_comm 10]
    by_cases hc : c.isDigit = true
    · rw [if_pos hc]
      dsimp only
      split
      · next hle => rw [ih hle, and_iff_right hc]
      · next hlt =>
        -- the value so far is past the bound, and more digits make it no smaller
        have hmore := le_ofDigitChars later (value * 10 + (c.toNat - '0'.toNat))
        simp only [reduceCtorEq, false_iff]
        rintro ⟨_, rfl, hn⟩
        exact hlt (Nat.le_trans hmore hn)
    · rw [if_neg hc]
      simp [hc]

theorem maxWord32_eq : maxWord32 = 2 ^ 32 - 1 := rfl

/-- What can be read as a number are the texts that write one. -/
theorem readUnsigned_isOk_iff {bound : Nat} {text : List Char} :
    (∃ n, readUnsigned 10 bound text = .ok n) ↔ WritesNumber bound text := by
  have hdigits : ∀ digits, (∃ n, readDigits 10 bound 0 digits = .ok n) ↔
      (∀ c ∈ digits, c.isDigit = true) ∧ Nat.ofDigitChars 10 digits 0 ≤ bound := by
    intro digits
    simp only [readDigits_ok_iff (Nat.zero_le bound)]
    exact ⟨fun ⟨n, hall, hn, hle⟩ => ⟨hall, hn ▸ hle⟩, fun ⟨hall, hle⟩ => ⟨_, hall, rfl, hle⟩⟩
  unfold readUnsigned
  split
  · simp [WritesNumber]
  · simp [WritesNumber]
  · next digits hne =>
    rw [hdigits]
    constructor
    · rintro ⟨hall, hle⟩
      exact ⟨digits, .inr rfl, fun h => hne (by rw [h]), hall, hle⟩
    · rintro ⟨digits', hsame | hsame, _, hall, hle⟩
      · rw [← hsame] at hall
        simp at hall
      · cases hsame
        exact ⟨hall, hle⟩
  · next hempty _ hplus =>
    rw [hdigits]
    constructor
    · rintro ⟨hall, hle⟩
      exact ⟨_, .inl rfl, hempty, hall, hle⟩
    · rintro ⟨digits', hsame | hsame, _, hall, hle⟩
      · rw [hsame]
        exact ⟨hall, hle⟩
      · exact absurd hsame (hplus _)

/-! ## Keywords -/

/-- The vocabularies from which attributes take their values. -/
inductive Vocabulary where
  | datatype
  | maxOccurs
  | jsonGrouping
  | xmlGrouping
  | fieldWrapping
deriving DecidableEq, Repr

namespace Vocabulary

/-- The attribute that takes its value from the vocabulary. -/
def key : Vocabulary → String
  | .datatype => "as-type"
  | .maxOccurs => "max-occurs"
  | .jsonGrouping => "in-json"
  | .xmlGrouping => "in-xml"
  | .fieldWrapping => "in-xml"

/-- The text is in the vocabulary; where there is a default, the empty text is. -/
def Has : Vocabulary → String → Prop
  | .datatype, s => ∃ d : Datatype, d.keyword = s
  | .maxOccurs, s => s = "unbounded" ∨ WritesNumber (2 ^ 32 - 1) s.toList
  | .jsonGrouping, s => s ∈ ["", "SINGLETON_OR_ARRAY", "ARRAY", "BY_KEY"]
  | .xmlGrouping, s => s ∈ ["", "UNGROUPED", "GROUPED"]
  | .fieldWrapping, s => s ∈ ["", "WRAPPED", "UNWRAPPED", "WITH_WRAPPER"]

/-- What is told of a text that is not in the vocabulary. -/
def fault : Vocabulary → String → KeywordFault
  | .datatype, s => .datatype s
  | v, s => .attribute v.key s

/-- What becomes of a text says whether it is in the vocabulary. -/
def Judged {α : Type} (v : Vocabulary) (s : String) : Except KeywordFault α → Prop
  | .ok _ => v.Has s
  | .error fault => ¬ v.Has s ∧ fault = v.fault s

theorem judged_datatype (s : String) : datatype.Judged s (Datatype.ofKeyword s) := by
  rw [Datatype.ofKeyword]
  cases hd : Datatype.ofKeyword? s with
  | some d => exact ⟨d, Datatype.keyword_of_ofKeyword? hd⟩
  | none =>
    refine ⟨?_, rfl⟩
    rintro ⟨d, rfl⟩
    rw [Datatype.ofKeyword?_keyword] at hd
    cases hd

theorem judged_maxOccurs (s : String) : maxOccurs.Judged s (MaxOccurs.ofKeyword s) := by
  rw [MaxOccurs.ofKeyword, maxWord32_eq]
  split
  · next hs => exact .inl hs
  · next hs =>
    cases hn : readUnsigned 10 (2 ^ 32 - 1) s.toList with
    | ok n => exact .inr (readUnsigned_isOk_iff.1 ⟨n, hn⟩)
    | error fault =>
      refine ⟨?_, rfl⟩
      rintro (h | h)
      · exact hs h
      · obtain ⟨n, h⟩ := readUnsigned_isOk_iff.2 h
        rw [hn] at h
        cases h

theorem judged_jsonGrouping (s : String) : jsonGrouping.Judged s (JsonGrouping.ofKeyword s) := by
  unfold JsonGrouping.ofKeyword
  split <;> simp_all [Judged, Has, fault, key]

theorem judged_xmlGrouping (s : String) : xmlGrouping.Judged s (XmlGrouping.ofKeyword s) := by
  unfold XmlGrouping.ofKeyword
  split <;> simp_all [Judged, Has, fault, key]

theorem judged_fieldWrapping (s : String) :
    fieldWrapping.Judged s (FieldWrapping.ofKeyword s) := by
  unfold FieldWrapping.ofKeyword
  split <;> simp_all [Judged, Has, fault, key]

end Vocabulary

/-! ## Rules -/

/-- What the notation can ask of an element. -/
inductive Rule where
  | metaschema
  | inked (key : String)
  | yesOrNo (key : String)
  | number (key : String)
  | keyword (vocabulary : Vocabulary)
  | named
deriving DecidableEq, Repr

/-- The value without the blanks around it. -/
def trimmed (value : String) : String :=
  String.ofList ((value.toList.dropWhile isBlank).rdropWhile isBlank)

theorem ofList_trimBlanks (value : String) :
    String.ofList (trimBlanks value.toList) = trimmed value := rfl

namespace Rule

/-- The element is as the rule asks: it is the root of a document; an attribute is there and not
    blank; an attribute is `yes` or `no`, or a 32-bit number, or in a vocabulary, if it is there; or
    it refers to a flag or names one. -/
def Holds : Rule → Element → Prop
  | .metaschema, e => e.name = "METASCHEMA"
  | .inked key, e => ∃ value, e.attribute? key = some value ∧ hasInk value = true
  | .yesOrNo key, e => ∀ value, e.attribute? key = some value → value = "yes" ∨ value = "no"
  | .number key, e => ∀ value, e.attribute? key = some value →
      WritesNumber (2 ^ 32 - 1) (trimmed value).toList
  | .keyword v, e => ∀ value, e.attribute? v.key = some value → v.Has (trimmed value)
  | .named, e => (e.attribute? "ref").isSome = true ∨ (e.attribute? "name").isSome = true

/-- What is told of an element that breaks the rule: the attribute and its value, if it has one. -/
def Tells : Rule → Element → DraftFault → Prop
  | .metaschema, _, fault => fault = .wrongRoot
  | .inked key, _, fault => fault = .missing key
  | .yesOrNo key, e, fault => ∃ value, e.attribute? key = some value ∧
      fault = .notYesOrNo key value
  | .number key, e, fault => ∃ value reason, e.attribute? key = some value ∧
      readUnsigned 10 (2 ^ 32 - 1) (trimmed value).toList = .error reason ∧
      fault = .number key value reason
  | .keyword v, e, fault => ∃ value, e.attribute? v.key = some value ∧
      fault = .keyword v.key value (v.fault (trimmed value))
  | .named, _, fault => fault = .unnamedFlag

/-- What is asked of every usage. -/
def ofUsage : List Rule := [.number "min-occurs", .yesOrNo "required", .keyword .maxOccurs]

/-- What is asked of the element that describes a group. -/
def ofGroup : List Rule := [.inked "name", .keyword .jsonGrouping, .keyword .xmlGrouping]

end Rule

/-! ## What elements stand for -/

namespace Xml.Element

/-- The element can be a usage in a model. -/
def isEntry (e : Element) : Bool :=
  e.name == "assembly" || e.name == "field" || e.name == "define-assembly" ||
    e.name == "define-field"

/-- The element stands in the first model of the assembly, or in a choice of it, and can be a
    usage there. -/
def Entry (d e : Element) : Prop :=
  ∃ model, d.child? "model" = some model ∧ e.isEntry = true ∧
    (e ∈ model.elements ∨ ∃ choice ∈ model.elements, choice.name = "choice" ∧ e ∈ choice.elements)

/-- The elements of a document that are definitions: children of the root, flags that are defined in
    an assembly or a field, and assemblies and fields that are defined in the model of an
    assembly. -/
inductive Defines (root : Element) : Element → Prop where
  | child {e : Element} (child : e ∈ root.elements)
      (name : e.name = "define-assembly" ∨ e.name = "define-field" ∨ e.name = "define-flag") :
      Defines root e
  | flag {d e : Element} (inside : Defines root d)
      (holder : d.name = "define-assembly" ∨ d.name = "define-field") (child : e ∈ d.elements)
      (name : e.name = "define-flag") : Defines root e
  | entry {d e : Element} (inside : Defines root d) (holder : d.name = "define-assembly")
      (entry : d.Entry e) (name : e.name = "define-assembly" ∨ e.name = "define-field") :
      Defines root e

/-- The element is the usage of a flag in an assembly or a field. -/
def UsesFlag (root e : Element) : Prop :=
  ∃ d, root.Defines d ∧ (d.name = "define-assembly" ∨ d.name = "define-field") ∧
    e ∈ d.elements ∧ (e.name = "flag" ∨ e.name = "define-flag")

/-- The element is a usage in the model of an assembly. -/
def UsesInModel (root e : Element) : Prop :=
  ∃ d, root.Defines d ∧ d.name = "define-assembly" ∧ d.Entry e

/-- What is asked of the elements of a document. -/
inductive Asks (root : Element) : Rule → Element → Prop where
  | root : Asks root .metaschema root
  | abstract : Asks root (.yesOrNo "abstract") root
  | href {e : Element} (child : e ∈ root.elements) (name : e.name = "import") :
      Asks root (.inked "href") e
  | definition {e : Element} (defines : root.Defines e) : Asks root (.inked "name") e
  | datatype {e : Element} (defines : root.Defines e)
      (name : e.name = "define-field" ∨ e.name = "define-flag") : Asks root (.keyword .datatype) e
  | flag {e : Element} (uses : root.UsesFlag e) (name : e.name = "flag") : Asks root .named e
  | flagDatatype {e : Element} (uses : root.UsesFlag e) (name : e.name = "flag") :
      Asks root (.keyword .datatype) e
  | reference {e : Element} (uses : root.UsesInModel e)
      (name : e.name = "assembly" ∨ e.name = "field") : Asks root (.inked "ref") e
  | usage {e : Element} {rule : Rule} (uses : root.UsesFlag e ∨ root.UsesInModel e)
      (listed : rule ∈ Rule.ofUsage) : Asks root rule e
  | group {e group : Element} {rule : Rule} (uses : root.UsesInModel e)
      (child : e.child? "group-as" = some group) (listed : rule ∈ Rule.ofGroup) :
      Asks root rule group
  | wrapping {e : Element} (uses : root.UsesInModel e)
      (name : e.name = "field" ∨ e.name = "define-field") : Asks root (.keyword .fieldWrapping) e

/-- All that is asked of the elements of the document holds. -/
def Valid (root : Element) : Prop := ∀ rule e, root.Asks rule e → rule.Holds e

end Xml.Element

end SchemaFamily
