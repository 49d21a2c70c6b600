import SchemaFamily.Disk.Basic

/-
  File trees. A tree holds files and directories under their names from the root on, and has a
  working directory in which relative paths are read. A path is followed step by step: every step
  starts at a directory, `..` leads to the one around it, and what a step names has to be there.
-/

namespace SchemaFamily

/-- What a name stands for in a tree. -/
inductive Entry where
  | file (text : Option String)
  | directory
deriving DecidableEq, Repr

/-- Files and directories under their names, the newest first, and a working directory. -/
structure FileTree where
  entries : List (List String × Entry)
  working : List String
deriving Repr

/-- A name cannot have more bytes. -/
def maxNameLength : Nat := 255

/-- A path cannot have more bytes. -/
def maxPathLength : Nat := 4095

namespace FileTree

/-- What a name stands for; the root is always a directory. -/
def entry? (t : FileTree) (name : List String) : Option Entry :=
  if name = [] then some .directory else t.entries.lookup name

/-- Where one step of a path leads from a place. -/
def step (t : FileTree) (place : List String) (segment : String) :
    Except DiskFault (List String) :=
  match t.entry? place with
  | none => .error .missing
  | some (.file _) => .error .notDirectory
  | some .directory =>
    if segment = "" ∨ segment = "." then .ok place
    else if segment = ".." then .ok place.dropLast
    else if maxNameLength < segment.utf8ByteSize then .error .nameTooLong
    else
      match t.entry? (place ++ [segment]) with
      | none => .error .missing
      | some _ => .ok (place ++ [segment])

/-- Where the steps of a path lead from a place. -/
def follow (t : FileTree) (place : List String) : List String → Except DiskFault (List String)
  | [] => .ok place
  | segment :: later =>
    match t.step place segment with
    | .error fault => .error fault
    | .ok place => t.follow place later

/-- The place of a path. -/
def locate (t : FileTree) (p : Path) : Except DiskFault (List String) :=
  if p.text.toList.contains '\x00' then .error .holdsNul
  else if p.text = "" then .error .missing
  else if maxPathLength < p.text.utf8ByteSize then .error .nameTooLong
  else t.follow (if p.isAbsolute then [] else t.working) p.segments

/-- The name of an entry directly in the directory at a place, if it is a file. -/
def fileIn? (place : List String) : List String × Entry → Option String
  | (name, .file _) => if name.dropLast = place then name.getLast? else none
  | (_, .directory) => none

/-- What is seen at a path. -/
def look (t : FileTree) (p : Path) : Sight :=
  match t.locate p with
  | .error fault => .nothing fault
  | .ok place =>
    match t.entry? place with
    | none => .nothing .missing
    | some (.file text) => .file text
    | some .directory => .directory (t.entries.filterMap (fileIn? place))

/-- The text of an entry. -/
def Entry.text? : Entry → Option String
  | .file text => text
  | .directory => none

theorem mem_texts_of_look {t : FileTree} {p : Path} {text : String}
    (h : t.look p = .file (some text)) :
    text ∈ t.entries.filterMap fun (_, entry) => Entry.text? entry := by
  unfold look at h
  split at h
  · cases h
  · next place _ =>
    split at h
    · cases h
    · next he =>
      cases h
      unfold entry? at he
      split at he
      · cases he
      · obtain ⟨before, after, hs, _⟩ := List.lookup_eq_some_iff.1 he
        exact List.mem_filterMap.2 ⟨(place, .file (some text)), by simp [hs], rfl⟩
    · cases h

/-- The tree as a disk. -/
def disk (t : FileTree) : Disk where
  look := t.look
  texts := t.entries.filterMap fun (_, entry) => Entry.text? entry
  look_mem := mem_texts_of_look

/-! ## Changing -/

/-- The tree with an entry under a name in place of those it had. -/
def put (t : FileTree) (name : List String) (entry : Entry) : FileTree :=
  { t with entries := (name, entry) :: t.entries.filter (·.1 != name) }

/-- The tree with a directory under a name, unless something is there. -/
def makeDirectory (t : FileTree) (name : List String) : FileTree :=
  if (t.entry? name).isSome then t else t.put name .directory

/-- The tree with a directory at every step of a path, and the place of the last. -/
def makeDirectories (t : FileTree) (place : List String) : List String → FileTree × List String
  | [] => (t, place)
  | segment :: later =>
    if segment = "" ∨ segment = "." then t.makeDirectories place later
    else if segment = ".." then t.makeDirectories place.dropLast later
    else (t.makeDirectory (place ++ [segment])).makeDirectories (place ++ [segment]) later

/-- A tree with nothing but a working directory. -/
def atDirectory (working : List String) : FileTree :=
  ((FileTree.mk [] working).makeDirectories [] working).1

/-- The tree with a file at a path, and the directories on the way to it; a path that ends in a
    slash is a directory. -/
def write (t : FileTree) (p : Path) (text : Option String) : FileTree :=
  let (t, place) := t.makeDirectories (if p.isAbsolute then [] else t.working) p.segments.dropLast
  match p.segments.getLast? with
  | none => t
  | some "" => t
  | some name => t.put (place ++ [name]) (.file text)

/-- The tree without the file at a path, if a file is there. -/
def remove (t : FileTree) (p : Path) : Option FileTree :=
  match t.locate p with
  | .error _ => none
  | .ok place =>
    match t.entry? place with
    | some (.file _) => some { t with entries := t.entries.filter (·.1 != place) }
    | _ => none

end FileTree

end SchemaFamily
