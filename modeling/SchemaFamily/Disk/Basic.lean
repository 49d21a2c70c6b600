import SchemaFamily.Disk.Path

/-
  Disks. A disk says what is seen at a path: a file with its text, a directory with the files
  directly in it, or nothing, and then why. The texts of all its files are known to be a finite
  list, and nothing else is ever read (`look_mem`).
-/

namespace SchemaFamily

/-- Why a path cannot be read. -/
inductive DiskFault where
  | missing
  | notDirectory
  | isDirectory
  | nameTooLong
  | notText
  | holdsNul
  | unseen
  | other (message : String)
deriving DecidableEq, Repr

/-- The wording of a fault. -/
def DiskFault.message : DiskFault → String
  | .missing => "No such file or directory (os error 2)"
  | .notDirectory => "Not a directory (os error 20)"
  | .isDirectory => "Is a directory (os error 21)"
  | .nameTooLong => "File name too long (os error 36)"
  | .notText => "stream did not contain valid UTF-8"
  | .holdsNul => "file name contained an unexpected NUL byte"
  | .unseen => "not looked at yet"
  | .other message => message

/-- What is seen at a path. A file whose bytes are no text has none; a directory shows the names
    of the files directly in it. -/
inductive Sight where
  | nothing (fault : DiskFault)
  | file (text : Option String)
  | directory (files : List String)
deriving DecidableEq, Repr

/-- What is seen at each path, and the texts of all files. -/
structure Disk where
  look : Path → Sight
  texts : List String
  look_mem : ∀ {p : Path} {text : String}, look p = .file (some text) → text ∈ texts

namespace Disk

/-- The text of the file at a path. -/
def read (disk : Disk) (p : Path) : Except DiskFault String :=
  match disk.look p with
  | .nothing fault => .error fault
  | .directory _ => .error .isDirectory
  | .file none => .error .notText
  | .file (some text) => .ok text

/-- The names of the files directly in the directory at a path. -/
def list (disk : Disk) (p : Path) : Except DiskFault (List String) :=
  match disk.look p with
  | .nothing fault => .error fault
  | .directory files => .ok files
  | .file _ => .error .notDirectory

/-- A directory is seen at a path. -/
def isDirectory (disk : Disk) (p : Path) : Bool :=
  match disk.look p with
  | .directory _ => true
  | _ => false

/-- Number of characters in all files. -/
def size (disk : Disk) : Nat := (String.join disk.texts).length

theorem mem_texts_of_read {disk : Disk} {p : Path} {text : String}
    (h : disk.read p = .ok text) : text ∈ disk.texts := by
  unfold read at h
  split at h
  · cases h
  · cases h
  · cases h
  · next hl => cases h; exact disk.look_mem hl

/-- A disk of which the sights in a list are known, the first that counts for a path, and all
    other paths are unseen. -/
def ofSights (sights : List (Path × Sight)) : Disk where
  look p := (sights.lookup p).getD (.nothing .unseen)
  texts := sights.filterMap fun (_, sight) =>
    match sight with
    | .file text => text
    | _ => none
  look_mem := by
    intro p text h
    cases hs : sights.lookup p with
    | none => simp [hs] at h
    | some sight =>
      simp only [hs, Option.getD_some] at h
      subst h
      obtain ⟨before, after, rfl, _⟩ := List.lookup_eq_some_iff.1 hs
      exact List.mem_filterMap.2 ⟨(p, .file (some text)), by simp, rfl⟩

end Disk

end SchemaFamily
