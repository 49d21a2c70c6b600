import SchemaFamily.Family.ImportTree
import SchemaFamily.Family.Reconcile
import SchemaFamily.Settings.Basic

/-
  Compiling a family: its documents are read, every name is resolved, and every group with two
  shapes gets its multiplexer. Imports are read in the directory of the file unless another is
  given. The families of a directory are the files in it with the right extension and no excluded
  prefix, in order of their names.
-/

namespace SchemaFamily

/-- A family with its names resolved and its groups reconciled; the number of multiplexers. -/
def finishFamily (suffix : String) : Pass Nat := do
  let _ ← link
  reconcile suffix

/-- The family of a path, its imports read in the directory `base`. -/
def compileIn (disk : Disk) (settings : Settings) (p base : Path) : Loading Graph := do
  let tree ← resolve disk settings.entities p base
  match (finishFamily settings.multiplexerSuffix).apply (Graph.ofTree tree) with
  | (.ok _, g) => return g
  | (.error failure, _) => throw failure

/-- The family of a path, its imports read in the directory of the path. -/
def compile (disk : Disk) (settings : Settings) (p : Path) : Loading Graph :=
  compileIn disk settings p p.directory

/-- A file of that name is a family. -/
def Settings.isFamily (s : Settings) (fileName : String) : Bool :=
  (Path.splitName fileName).2 == some s.extension && !s.isExcluded fileName

/-- The families of a directory. -/
def discover (disk : Disk) (settings : Settings) (directory : Path) :
    Except Failure (List Path) :=
  match disk.list directory with
  | .error fault => .error (.unreadable directory fault)
  | .ok files =>
    .ok (((files.filter settings.isFamily).mergeSort (· ≤ ·)).map fun name =>
      directory.join ⟨name⟩)

/-- What each path compiles to, one after the other with the same cache. -/
def compileAll (disk : Disk) (settings : Settings) :
    List Path → Cache → List (Path × Except Failure Graph) × Cache
  | [], c => ([], c)
  | p :: later, c =>
    let (result, c) := (compile disk settings p).run.run c
    let (results, c) := compileAll disk settings later c
    ((p, result) :: results, c)

end SchemaFamily
