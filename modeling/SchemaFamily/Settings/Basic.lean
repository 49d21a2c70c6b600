import SchemaFamily.Data.Basic
import SchemaFamily.Disk.Basic
import SchemaFamily.Xml.Reference

/-
  Settings of a run: how multiplexers are named, which files of a directory are families, what
  entities stand for, and how many families may be compiled at a time. Settings that were read are
  checked: the suffix is not empty and the number of jobs is not zero.
-/

namespace SchemaFamily

/-- The settings of a run. -/
structure Settings where
  multiplexerSuffix : String := "Multiplexer"
  extension : String := "xml"
  excludedPrefixes : List String := []
  entities : Xml.EntityMap := []
  jobs : Option Nat := none
deriving DecidableEq, Repr, Inhabited

/-- Why a file holds no settings. -/
inductive SettingsFault where
  | unreadable (fault : DiskFault)
  | notJson
  | notYaml
  | emptySuffix
  | noJobs
deriving DecidableEq, Repr

/-- The wording of a fault. -/
def SettingsFault.message : SettingsFault → String
  | .unreadable fault => fault.message
  | .notJson => "not a JSON text of settings"
  | .notYaml => "not a YAML text of settings"
  | .emptySuffix => "multiplexer_suffix must not be empty"
  | .noJobs => "jobs must be at least 1"

namespace Settings

/-- A file of that name is left out of its directory's families. -/
def isExcluded (s : Settings) (fileName : String) : Bool :=
  s.excludedPrefixes.any fun start => start.toList.isPrefixOf fileName.toList

/-- Settings that can be worked with. -/
def check (s : Settings) : Except SettingsFault Settings :=
  if s.multiplexerSuffix = "" then .error .emptySuffix
  else if s.jobs = some 0 then .error .noJobs
  else .ok s

theorem check_eq_ok_iff {s t : Settings} :
    s.check = .ok t ↔ t = s ∧ s.multiplexerSuffix ≠ "" ∧ s.jobs ≠ some 0 := by
  unfold check
  split
  · next h => simp [h]
  · next h =>
    split
    · next hj => simp [hj]
    · next hj => simp [h, hj, eq_comm]

end Settings

instance : ToData Settings where
  toData s := .record
    [("multiplexer_suffix", toData s.multiplexerSuffix), ("extension", toData s.extension),
     ("exclude_prefixes", toData s.excludedPrefixes),
     ("entities", .record (s.entities.map fun (name, value) => (name, toData value))),
     ("jobs", toData s.jobs)]

end SchemaFamily
