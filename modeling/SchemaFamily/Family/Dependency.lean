import SchemaFamily.Handle
import SchemaFamily.Vocabulary.Keyword

/-
  Dependencies. A document depends on declarations and multiplexers of other documents, each
  under a name in the namespace of its kind. The set is kept in ascending order of names and then
  namespaces, and the first entry of a key is never replaced (`get?_register_self`,
  `get?_register_of_ne`, `register_of_contains`).
-/

namespace SchemaFamily

/-- What a document may depend on. -/
inductive Dependency where
  | declaration (id : DeclarationId)
  | multiplexer (id : MultiplexerId)
deriving DecidableEq, Repr

/-- Where the name of a dependency is looked up. -/
inductive Namespace where
  | declaration (kind : Kind)
  | multiplexer
deriving DecidableEq, Repr

/-- The place of a namespace among those of one name. -/
def Namespace.rank : Namespace → Nat
  | .declaration kind => kind.rank
  | .multiplexer => 3

/-- A dependency under its name. -/
structure DependencyEntry where
  name : String
  nameSpace : Namespace
  dependency : Dependency
deriving DecidableEq, Repr

/-- `a` stands before `b`: a smaller name, or the same name in an earlier namespace. -/
def DependencyEntry.before (a b : DependencyEntry) : Bool :=
  a.name < b.name || (a.name == b.name && a.nameSpace.rank < b.nameSpace.rank)

/-- The dependencies of a document in order. -/
structure Dependencies where
  entries : List DependencyEntry := []
deriving DecidableEq, Repr, Inhabited

/-- `entry` put before the first entry that it stands before. -/
def DependencyEntry.insertInto (entry : DependencyEntry) :
    List DependencyEntry → List DependencyEntry
  | [] => [entry]
  | e :: later => if entry.before e then entry :: e :: later else e :: entry.insertInto later

namespace Dependencies

/-- What a name stands for in a namespace. -/
def get? (d : Dependencies) (nameSpace : Namespace) (name : String) : Option Dependency :=
  (d.entries.find? fun e => e.nameSpace == nameSpace && e.name == name).map (·.dependency)

/-- Something is registered under the name. -/
def contains (d : Dependencies) (nameSpace : Namespace) (name : String) : Bool :=
  (d.get? nameSpace name).isSome

/-- Registers a dependency, unless its name already stands for one. -/
def register (d : Dependencies) (nameSpace : Namespace) (name : String)
    (dependency : Dependency) : Dependencies :=
  if d.contains nameSpace name then d
  else ⟨(⟨name, nameSpace, dependency⟩ : DependencyEntry).insertInto d.entries⟩

/-- Number of dependencies. -/
def size (d : Dependencies) : Nat := d.entries.length

end Dependencies

theorem DependencyEntry.mem_insertInto {entry e : DependencyEntry} {es : List DependencyEntry} :
    e ∈ entry.insertInto es ↔ e = entry ∨ e ∈ es := by
  induction es with
  | nil => simp [insertInto]
  | cons x xs ih =>
    simp only [insertInto]
    split
    · simp
    · simp only [List.mem_cons, ih]
      exact or_left_comm

theorem DependencyEntry.find?_insertInto_of_false {p : DependencyEntry → Bool}
    {entry : DependencyEntry} (h : p entry = false) (es : List DependencyEntry) :
    (entry.insertInto es).find? p = es.find? p := by
  induction es with
  | nil => simp [insertInto, h]
  | cons e es ih =>
    simp only [insertInto]
    split
    · simp [h]
    · simp only [List.find?_cons, ih]

theorem DependencyEntry.find?_insertInto_of_true {p : DependencyEntry → Bool}
    {entry : DependencyEntry} (h : p entry = true) {es : List DependencyEntry}
    (hn : es.find? p = none) : (entry.insertInto es).find? p = some entry := by
  induction es with
  | nil => simp [insertInto, h]
  | cons e es ih =>
    simp only [List.find?_cons] at hn
    split at hn
    · cases hn
    · next he =>
      simp only [insertInto]
      split
      · simp [h]
      · rw [List.find?_cons_of_neg (by simp [he])]
        exact ih hn

namespace Dependencies

theorem register_of_contains {d : Dependencies} {nameSpace : Namespace} {name : String}
    (h : d.contains nameSpace name = true) (dependency : Dependency) :
    d.register nameSpace name dependency = d := by
  simp [register, h]

theorem get?_register_self {d : Dependencies} {nameSpace : Namespace} {name : String}
    (h : d.contains nameSpace name = false) (dependency : Dependency) :
    (d.register nameSpace name dependency).get? nameSpace name = some dependency := by
  have hn : (d.entries.find? fun e => e.nameSpace == nameSpace && e.name == name) = none := by
    simpa only [contains, get?, Option.isSome_map, Option.isSome_eq_false_iff,
      Option.isNone_iff_eq_none] using h
  simp only [register, h, Bool.false_eq_true, if_false, get?]
  rw [DependencyEntry.find?_insertInto_of_true (by simp) hn]
  rfl

theorem get?_register_of_ne {d : Dependencies} {nameSpace nameSpace' : Namespace}
    {name name' : String} (h : (nameSpace', name') ≠ (nameSpace, name))
    (dependency : Dependency) :
    (d.register nameSpace name dependency).get? nameSpace' name' = d.get? nameSpace' name' := by
  unfold register
  split
  · rfl
  · simp only [get?]
    rw [DependencyEntry.find?_insertInto_of_false]
    simp only [Bool.and_eq_false_iff, beq_eq_false_iff_ne]
    by_cases hs : nameSpace = nameSpace'
    · subst hs
      exact .inr fun hn => h (by rw [hn])
    · exact .inl hs

end Dependencies

end SchemaFamily
