import SchemaFamily.Family.Failure

/-
  A cache of drafts. A draft stays under the path that it was read from, and is found again under
  every spelling with the same components. The first draft put under a path is kept until all are
  dropped; what could not be read is not kept. Each load that finds a draft counts as a hit.
-/

namespace SchemaFamily

/-- Drafts under the components of their paths, and how often one was found. -/
structure Cache where
  drafts : List (List Component × Draft) := []
  hits : Nat := 0
deriving DecidableEq, Repr, Inhabited

namespace Cache

/-- The draft under a path. -/
def get? (c : Cache) (p : Path) : Option Draft := c.drafts.lookup p.components

/-- A draft is kept under a path. -/
def contains (c : Cache) (p : Path) : Bool := (c.get? p).isSome

/-- Number of drafts. -/
def size (c : Cache) : Nat := c.drafts.length

/-- The cache with a draft under a path, unless there is one. -/
def insert (c : Cache) (p : Path) (draft : Draft) : Cache :=
  if c.contains p then c else { c with drafts := (p.components, draft) :: c.drafts }

/-- The cache without its drafts; hits are still counted. -/
def clear (c : Cache) : Cache := { c with drafts := [] }

theorem get?_insert_self {c : Cache} {p : Path} (h : c.contains p = false) (draft : Draft) :
    (c.insert p draft).get? p = some draft := by
  simp [insert, h, get?]

end Cache

/-- Reading with a cache: a result or a failure, and the cache afterwards. -/
abbrev Loading := ExceptT Failure (StateM Cache)

/-- The draft in the file at a path. -/
def readDraft (disk : Disk) (entities : Xml.EntityMap) (p : Path) : Except Failure Draft :=
  match disk.read p with
  | .error fault => .error (.unreadable p fault)
  | .ok text =>
    match Draft.read entities p text with
    | .error error => .error (.malformed p error)
    | .ok draft => .ok draft

/-- The draft of a path: the one in the cache, or the one in its file, which is then kept. -/
def loadDraft (disk : Disk) (entities : Xml.EntityMap) (p : Path) : Loading Draft := do
  let c ← get
  match c.get? p with
  | some draft =>
    set { c with hits := c.hits + 1 }
    return draft
  | none =>
    match readDraft disk entities p with
    | .error failure => throw failure
    | .ok draft =>
      set (c.insert p draft)
      return draft

end SchemaFamily
