import SchemaFamily.Disk.Basic
import SchemaFamily.Draft.Reading
import SchemaFamily.Family.Graph

/-
  Why a family cannot be compiled. A failure is told with the file and, where it is known, the
  line; `message` is its wording, and `fullMessage` adds the cause of a file that cannot be read
  once more.
-/

namespace SchemaFamily

/-- Where a usage stands: its file and line, its document and its declaration. -/
structure Site where
  path : Path
  line : Option Nat
  document : String
  declaration : String
deriving DecidableEq, Repr

/-- Why a family cannot be compiled. -/
inductive Failure where
  | malformed (path : Path) (error : DraftError)
  | unreadable (path : Path) (fault : DiskFault)
  | unresolved (site : Site) (kind : Kind) (name : String)
  | missingIndexKey (site : Site) (target group : String)
  | importCycle (chain : List Path)
  | dangling (handle : Dangling)
deriving DecidableEq, Repr

/-- A file and a line in it. -/
def placeText (path : Path) (line : Option Nat) : String :=
  match line with
  | some n => s!"{path.text}:{n}"
  | none => path.text

/-- The wording of a handle that numbers nothing. -/
def Dangling.message : Dangling → String
  | .document id => s!"no document {id.display}"
  | .declaration id => s!"no declaration {id.display}"
  | .multiplexer id => s!"no multiplexer {id.display}"
  | .circular id => s!"document {id.display} imports itself"

namespace Failure

/-- The wording of a failure. -/
def message : Failure → String
  | .malformed path error =>
    s!"{placeText path (some error.line)}: malformed <{error.element}>: {error.fault.message}"
  | .unreadable path fault => s!"Cannot read {path.text}: {fault.message}"
  | .unresolved site kind name =>
    s!"{placeText site.path site.line}: {kind.word} '{name}' used in '{site.declaration}' of " ++
      s!"'{site.document}' is not defined in any imported document"
  | .missingIndexKey site target group =>
    s!"{placeText site.path site.line}: group '{group}' in '{site.declaration}' of " ++
      s!"'{site.document}' is BY_KEY but '{target}' declares no json-key index flag"
  | .importCycle chain => "Import cycle: " ++ " -> ".intercalate (chain.map Path.text)
  | .dangling handle => handle.message

/-- The wording of a failure followed by that of its cause. -/
def fullMessage (f : Failure) : String :=
  match f with
  | .unreadable _ fault => s!"{f.message}: {fault.message}"
  | _ => f.message

end Failure

end SchemaFamily
