import SchemaFamily.Family.Cache

/-
  Import trees. A tree holds a draft and the trees of what it imports, in order, so a document
  stands in it once for every way of imports that leads to it. `resolve` builds the tree of a path:
  imports are read in one base directory, and a path that is already on the way is a cycle. Every
  step adds a path to the way, and there are only so many imports to follow, so the steps that a
  search may take (`steps`) are never used up. `Graph.ofTree` numbers the documents of a tree, each
  before its imports.
-/

namespace SchemaFamily

/-- A draft with the trees of what it imports. -/
inductive ImportTree where
  | node (draft : Draft) (imports : List ImportTree)
deriving Repr

namespace ImportTree

/-- The draft at the root. -/
def draft : ImportTree → Draft
  | .node draft _ => draft

/-- The trees of what the root imports. -/
def imports : ImportTree → List ImportTree
  | .node _ imports => imports

end ImportTree

/-! ## Following imports -/

/-- The results of loading on a list, in order, up to the first failure. -/
def Loading.each {α β : Type} (f : α → Loading β) : List α → Loading (List β)
  | [] => return []
  | a :: later => do
    let b ← f a
    let more ← each f later
    return b :: more

/-- The tree of a path after at most `steps` steps; `way` leads to the path. -/
def resolveFrom (disk : Disk) (entities : Xml.EntityMap) (base : Path) :
    (steps : Nat) → (way : List Path) → Path → Loading ImportTree
  | 0, way, p => throw (.importCycle (way ++ [p.normalize]))
  | steps + 1, way, p => do
    let key := p.normalize
    if way.contains key then throw (.importCycle (way ++ [key]))
    else
      let draft ← loadDraft disk entities key
      let imports ← Loading.each
        (fun i => resolveFrom disk entities base steps (way ++ [key]) (base.join ⟨i.href⟩))
        draft.imports
      return .node draft imports

/-- More steps than there can be different imports on a way: every import of a file is written
    with some of its characters. -/
def steps (disk : Disk) (c : Cache) : Nat :=
  disk.size + (c.drafts.flatMap fun (_, draft) => draft.imports).length + 2

/-- The tree of a path, its imports read in the directory `base`. -/
def resolve (disk : Disk) (entities : Xml.EntityMap) (p base : Path) : Loading ImportTree := do
  let c ← get
  resolveFrom disk entities base (steps disk c) [] p

/-! ## Numbering -/

mutual

/-- The graph with the documents of a tree added, and the handle of the root. -/
def Graph.graft (g : Graph) : ImportTree → Graph × DocumentId
  | .node draft imports =>
    let (g, id) := g.insert draft
    (g.graftImports id imports, id)

/-- The graph with the documents of several trees added, each root imported by `parent`. -/
def Graph.graftImports (g : Graph) (parent : DocumentId) : List ImportTree → Graph
  | [] => g
  | tree :: later =>
    let (g, child) := g.graft tree
    (g.attach parent child).graftImports parent later

end

/-- The graph of the documents of a tree. -/
def Graph.ofTree (tree : ImportTree) : Graph := ((Graph.graft {} tree)).1

end SchemaFamily
