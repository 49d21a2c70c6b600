import SchemaFamily.Data.JsonReading
import SchemaFamily.Settings.Basic
import SchemaFamily.Yaml.Node

/-
  Reading settings. Settings are a record in which every field may be missing, no field is
  repeated and no other field stands; JSON may also list the fields in order. Both notations are
  read alike, and a `Telling` says how each tells texts, lists, records and the number of jobs. In
  YAML every scalar is a text, and a missing value is an empty list or record. A tag counts only
  for the number of jobs: it says that a plain scalar is a value, or no value where it is that of
  no value, and that of integers lets a literal block be a number.
-/

namespace SchemaFamily

/-- How a notation tells the values of settings. -/
structure Telling (α : Type) where
  text? : α → Option String
  items? : α → Option (List α)
  fields? : α → Option (List (String × α))
  jobs? : α → Option (Option Nat)

/-- The names of the fields of settings, in order. -/
def settingsFields : List String :=
  ["multiplexer_suffix", "extension", "exclude_prefixes", "entities", "jobs"]

namespace Settings

/-- The settings with one field given. -/
def give {α : Type} (t : Telling α) (s : Settings) (field : String × α) : Option Settings :=
  match field.1 with
  | "multiplexer_suffix" => do
    let multiplexerSuffix ← t.text? field.2
    return { s with multiplexerSuffix }
  | "extension" => do
    let extension ← t.text? field.2
    return { s with extension }
  | "exclude_prefixes" => do
    let items ← t.items? field.2
    let excludedPrefixes ← items.mapM t.text?
    return { s with excludedPrefixes }
  | "entities" => do
    let fields ← t.fields? field.2
    let pairs ← fields.mapM fun (name, value) => (t.text? value).map (name, ·)
    let entities := pairs.foldl
      (fun known (name, value) => Xml.EntityMap.assign known name value) []
    return { s with entities }
  | "jobs" => do
    let jobs ← t.jobs? field.2
    return { s with jobs }
  | _ => none

/-- The settings that fields tell. -/
def ofFields? {α : Type} (t : Telling α) (fields : List (String × α)) : Option Settings :=
  if (fields.map (·.1)).Nodup then fields.foldlM (give t) {} else none

/-! ## JSON -/

/-- How JSON tells the values of settings. -/
def jsonTelling : Telling Data where
  text?
    | .text content => some content
    | _ => none
  items?
    | .list items => some items
    | _ => none
  fields?
    | .record fields => some fields
    | _ => none
  jobs?
    | .null => some none
    | .number n => some (some n)
    | _ => none

/-- The settings that a JSON text tells. -/
def ofJson? (s : String) : Option Settings :=
  match Data.ofJson? s with
  | some (.record fields) => ofFields? jsonTelling fields
  | some (.list items) =>
    if items.length ≤ settingsFields.length then
      ofFields? jsonTelling (settingsFields.zip items)
    else none
  | _ => none

/-! ## YAML -/

/-- The number of jobs that a YAML scalar tells, if it tells one. -/
def yamlJobs? (text : String) (style : Yaml.Style) (tag : Option Yaml.Tag) :
    Option (Option Nat) :=
  let number := (Yaml.unsigned? maxWord64 text.toList).map some
  match style, tag with
  | .plain, none => if text = "" ∨ Yaml.readsAsNull text then some none else number
  | .plain, some tag =>
    if tag ≠ .null then number
    else if Yaml.readsAsNull text then some none
    else none
  | .literal, some tag => if tag = .int then number else none
  | _, _ => none

/-- How the nodes of a YAML document tell the values of settings. -/
def yamlTelling (d : Yaml.Document) : Telling Yaml.Node where
  text? node :=
    match d.resolve? node with
    | some (.scalar text _ _) => some text
    | _ => none
  items? node :=
    match d.resolve? node with
    | some (.list items) => some items
    | some (.scalar "" .plain _) => some []
    | _ => none
  fields? node :=
    match d.resolve? node with
    | some (.record entries) => entries.mapM fun (name, value) =>
      match d.resolve? name with
      | some (.scalar text _ _) => some (text, value)
      | _ => none
    | some (.scalar "" .plain _) => some []
    | _ => none
  jobs? node :=
    match d.resolve? node with
    | some (.scalar text style tag) => yamlJobs? text style tag
    | _ => none

/-- The settings that a YAML text tells. -/
def ofYaml? (s : String) : Option Settings := do
  let d ← Yaml.Document.read? s
  let t := yamlTelling d
  let fields ← t.fields? d.root
  ofFields? t fields

/-! ## Files -/

/-- A file of that path is read as YAML. -/
def isYaml (p : Path) : Bool :=
  p.extension?.any fun extension => ["yaml", "yml"].contains extension.toLower

/-- The settings in the file at a path. -/
def ofFile (disk : Disk) (p : Path) : Except SettingsFault Settings :=
  match disk.read p with
  | .error fault => .error (.unreadable fault)
  | .ok text =>
    if isYaml p then
      match ofYaml? text with
      | some s => s.check
      | none => .error .notYaml
    else
      match ofJson? text with
      | some s => s.check
      | none => .error .notJson

end Settings

end SchemaFamily
