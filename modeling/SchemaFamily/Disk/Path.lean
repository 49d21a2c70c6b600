import SchemaFamily.Text.Blank

/-
  Paths. A path is kept as it was spelled; what it names is decided by its components, so two
  spellings with the same components are the same key. Single dots, doubled and trailing slashes
  make no component, but a dot in front does, and `..` always does. `normalize` spells a path
  without dots.
-/

namespace SchemaFamily

/-- A path as spelled. -/
structure Path where
  text : String
deriving DecidableEq, Repr, Inhabited

/-- A step of a path. -/
inductive Component where
  | root
  | here
  | parent
  | name (text : String)
deriving DecidableEq, Repr

/-- A component as it is spelled between slashes; the root has no spelling of its own there. -/
def Component.text : Component → String
  | .root => ""
  | .here => "."
  | .parent => ".."
  | .name text => text

/-- The step that a piece between slashes makes, if any. -/
def Component.ofSegment? (segment : String) : Option Component :=
  if segment = "" ∨ segment = "." then none
  else if segment = ".." then some .parent
  else some (.name segment)

namespace Path

/-- The pieces of a text between the occurrences of a separator. -/
def cut (separator : Char) (s : String) : List String :=
  (pieces (· == separator) s.toList).map String.ofList

/-- The pieces of a spelling between slashes. -/
def segments (p : Path) : List String := cut '/' p.text

/-- The spelling starts at the root. -/
def isAbsolute (p : Path) : Bool := p.text.toList.head? == some '/'

/-- What a path starts with: the root, the current directory, or neither. -/
def start? (p : Path) : Option Component :=
  match p.segments with
  | "" :: _ :: _ => some .root
  | "." :: _ => some .here
  | _ => none

/-- The components of a path in order. -/
def components (p : Path) : List Component :=
  p.start?.toList ++ p.segments.filterMap Component.ofSegment?

/-- The plainest spelling of a list of components. -/
def ofComponents : List Component → Path
  | .root :: steps => ⟨"/" ++ "/".intercalate (steps.map Component.text)⟩
  | steps => ⟨"/".intercalate (steps.map Component.text)⟩

/-- The path spelled without dots. -/
def normalize (p : Path) : Path := ofComponents (p.components.filter (· != .here))

/-- The two paths have the same components. -/
def same (p q : Path) : Bool := p.components == q.components

/-- The path that `child` names when it is read in the directory `p`. -/
def join (p child : Path) : Path :=
  if child.isAbsolute then child
  else if p.text.toList.getLast?.all (· == '/') then ⟨p.text ++ child.text⟩
  else ⟨p.text ++ "/" ++ child.text⟩

/-- The directory that a path stands in, spelled plainly; the current one for a bare name. -/
def directory (p : Path) : Path :=
  match p.components.dropLast with
  | [] => ⟨"."⟩
  | steps => ofComponents steps

/-- The last component, when it is a name. -/
def fileName? (p : Path) : Option String :=
  match p.components.getLast? with
  | some (.name text) => some text
  | _ => none

/-- The parts of a file name before and after its last dot; a dot in front cuts nothing off. -/
def splitName (name : String) : String × Option String :=
  match cut '.' name with
  | [] | [_] => (name, none)
  | "" :: [_] => (name, none)
  | segments => (".".intercalate segments.dropLast, segments.getLast?)

/-- The file name up to its last dot. -/
def stem? (p : Path) : Option String := p.fileName?.map fun name => (splitName name).1

/-- The file name from its last dot on. -/
def extension? (p : Path) : Option String := p.fileName?.bind fun name => (splitName name).2

example : (Path.mk "./a//b/./../c/").components =
    [.here, .name "a", .name "b", .parent, .name "c"] := by decide +kernel
example : (Path.mk "./a//b/./../c/").normalize = ⟨"a/b/../c"⟩ := by decide +kernel
example : (Path.mk "/.").components = [.root] := by decide +kernel
example : splitName ".xml" = (".xml", none) ∧ splitName "a.b.c" = ("a.b", some "c") := by
  decide +kernel

end Path

end SchemaFamily
