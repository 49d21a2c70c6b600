import SchemaFamily.Definition.Usage

/-
  Definitions. A definition names an assembly, a field or a flag and says what it is made of:
  flags and a model of usages for an assembly, flags and a value for a field, a value for a flag.
-/

namespace SchemaFamily

/-- An example of a definition. -/
structure Example where
  href : Option String
  path : Option String
  description : Option String
  remarks : Option String
  content : String
deriving DecidableEq, Repr

/-- What a definition says about itself. -/
structure Metadata where
  formalName : Option String := none
  description : Option String := none
  remarks : Option String := none
  examples : List Example := []
  position : Position := .unknown
deriving DecidableEq, Repr

/-- What an assembly is made of. -/
structure AssemblyBody where
  flags : List Usage := []
  model : List ModelItem := []
  jsonKey : Option String := none
  rootName : Option String := none
  address : Option String := none
deriving DecidableEq, Repr

/-- What a field is made of. -/
structure FieldBody where
  flags : List Usage := []
  datatype : Datatype := default
  jsonKey : Option String := none
  jsonValueKey : Option String := none
  jsonValueKeyFlag : Option String := none
deriving DecidableEq, Repr

/-- What a flag is made of. -/
structure FlagBody where
  datatype : Datatype := default
  allowedValues : List String := []
deriving DecidableEq, Repr

/-- What a definition is made of. -/
inductive Body where
  | assembly (body : AssemblyBody)
  | field (body : FieldBody)
  | flag (body : FlagBody)
deriving DecidableEq, Repr

/-- A named definition. -/
structure Definition where
  name : String
  metadata : Metadata := {}
  body : Body
deriving DecidableEq, Repr

/-- Where a definition can be used from: by name, or only where it stands. -/
inductive Scope where
  | everywhere
  | inline
deriving DecidableEq, Repr

namespace Body

/-- The kind of what is defined. -/
def kind : Body → Kind
  | .assembly _ => .assembly
  | .field _ => .field
  | .flag _ => .flag

/-- The usages of flags. -/
def flags : Body → List Usage
  | .assembly body => body.flags
  | .field body => body.flags
  | .flag _ => []

/-- The entries of the model. -/
def model : Body → List ModelItem
  | .assembly body => body.model
  | .field _ | .flag _ => []

/-- The body with its list of flags changed by `f`, where it has one. -/
def mapFlags (f : List Usage → List Usage) : Body → Body
  | .assembly body => .assembly { body with flags := f body.flags }
  | .field body => .field { body with flags := f body.flags }
  | .flag body => .flag body

/-- The body with its model changed by `f`, where it has one. -/
def mapModel (f : List ModelItem → List ModelItem) : Body → Body
  | .assembly body => .assembly { body with model := f body.model }
  | .field body => .field body
  | .flag body => .flag body

/-- The name of the flag that keys values in the key and value notation. -/
def jsonKey : Body → Option String
  | .assembly body => body.jsonKey
  | .field body => body.jsonKey
  | .flag _ => none

/-- The datatype of the value, where there is one. -/
def datatype? : Body → Option Datatype
  | .assembly _ => none
  | .field body => some body.datatype
  | .flag body => some body.datatype

/-- The name of the document's root element, where the definition may be one. -/
def rootName : Body → Option String
  | .assembly body => body.rootName
  | .field _ | .flag _ => none

@[simp]
theorem kind_mapFlags (f : List Usage → List Usage) (b : Body) : (b.mapFlags f).kind = b.kind := by
  cases b <;> rfl

@[simp]
theorem kind_mapModel (f : List ModelItem → List ModelItem) (b : Body) :
    (b.mapModel f).kind = b.kind := by
  cases b <;> rfl

@[simp]
theorem model_mapFlags (f : List Usage → List Usage) (b : Body) :
    (b.mapFlags f).model = b.model := by
  cases b <;> rfl

@[simp]
theorem flags_mapModel (f : List ModelItem → List ModelItem) (b : Body) :
    (b.mapModel f).flags = b.flags := by
  cases b <;> rfl

end Body

namespace Definition

/-- The kind of what is defined. -/
def kind (d : Definition) : Kind := d.body.kind

/-- The usages of flags. -/
def flags (d : Definition) : List Usage := d.body.flags

/-- The entries of the model. -/
def model (d : Definition) : List ModelItem := d.body.model

/-- The name of the flag that keys values in the key and value notation. -/
def jsonKey (d : Definition) : Option String := d.body.jsonKey

/-- The definition with each usage changed by `f`. -/
def mapUsages (f : Usage → Usage) (d : Definition) : Definition :=
  { d with body := (d.body.mapFlags (·.map f)).mapModel (·.map (·.mapUsages f)) }

/-- The definition after `count` declarations were put before those that its handles number. -/
def rebase (d : Definition) (count : Nat) : Definition := d.mapUsages (·.rebase count)

end Definition

end SchemaFamily
