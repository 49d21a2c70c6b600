import SchemaFamily.Command.Arguments
import SchemaFamily.Family.Compile
import SchemaFamily.Settings.Reading

/-
  Running a request. A family is compiled and written; the families of a directory are compiled
  with one cache, those that fail are told one after the other, and the others are written
  together. The exit code is 0 when all went well, 1 when something could not be read or compiled,
  2 for wrong arguments and 3 for wrong settings. With more jobs than there can be the run is cut
  off with 101; what is told of that is left out.
-/

namespace SchemaFamily

/-- What a run leaves: its exit code, what it wrote, what it told of failures, and the paths that
    it would have looked at but that are unseen. -/
structure Outcome where
  exit : Nat
  output : String := ""
  errors : String := ""
  unseen : List Path := []
deriving DecidableEq, Repr

namespace Outcome

/-- All went well. -/
def success (output : String) : Outcome := { exit := 0, output }

/-- A line that tells of a failure. -/
def errorLine (message : String) : String := s!"ERROR: {message}\n"

/-- The path of a file that cannot be read because it is unseen. -/
def unseenPath? : Failure → Option Path
  | .unreadable path .unseen => some path
  | _ => none

/-- The run ends with a failure. -/
def failure (f : Failure) : Outcome :=
  { exit := 1, errors := errorLine f.fullMessage, unseen := (unseenPath? f).toList }

end Outcome

/-- More families than this are never compiled at a time, and no more can be asked for. -/
def maxJobs : Nat := Nat.pow 2 61 - 1

/-- The families that were compiled. -/
def compiled (results : List (Path × Except Failure Graph)) : List (Path × Graph) :=
  results.filterMap fun (path, result) => result.toOption.map (path, ·)

/-- Why the others were not. -/
def failures (results : List (Path × Except Failure Graph)) : List Failure :=
  results.filterMap fun (_, result) =>
    match result with
    | .ok _ => none
    | .error failure => some failure

/-- How many families failed. -/
def failureCount (failed all : Nat) : String :=
  s!"{failed} of {all} families failed to compile"

/-- Compiles the family of a file. -/
def compileFile (disk : Disk) (settings : Settings) (input : Path) (format : Format) : Outcome :=
  match ((compile disk settings input).run.run {}).1 with
  | .error failure => .failure failure
  | .ok g =>
    match g.render format with
    | .error handle => .failure (.dangling handle)
    | .ok text => .success (text ++ "\n")

/-- What is written and told of several families, each with what it was compiled to. -/
def Outcome.ofFamilies (results : List (Path × Except Failure Graph)) (format : Format) : Outcome :=
  let failed := failures results
  match renderAll (compiled results) format with
  | .error handle => .failure (.dangling handle)
  | .ok text =>
    let told := String.join (failed.map fun f => Outcome.errorLine f.message)
    { exit := if failed.isEmpty then 0 else 1
      output := text ++ "\n"
      errors :=
        if failed.isEmpty then ""
        else told ++ Outcome.errorLine (failureCount failed.length results.length)
      unseen := failed.filterMap Outcome.unseenPath? }

/-- Compiles the families of a directory. -/
def compileDirectory (disk : Disk) (settings : Settings) (input : Path) (format : Format) :
    Outcome :=
  match discover disk settings input with
  | .error failure => .failure failure
  | .ok paths =>
    if settings.jobs.any (maxJobs < ·) then { exit := 101 }
    else .ofFamilies (compileAll disk settings paths {}).1 format

/-- Runs a command with settings. -/
def Command.run (disk : Disk) (settings : Settings) : Command → Outcome
  | .compile input format =>
    if disk.isDirectory input then compileDirectory disk settings input format
    else compileFile disk settings input format
  | .list directory =>
    match discover disk settings directory with
    | .error failure => .failure failure
    | .ok paths => .success (String.join (paths.map fun p => p.text ++ "\n"))

/-- The settings of a request. -/
def Request.settingsIn (r : Request) (disk : Disk) : Except (Path × SettingsFault) Settings :=
  match r.settings with
  | none => .ok {}
  | some path =>
    match Settings.ofFile disk path with
    | .error fault => .error (path, fault)
    | .ok settings => .ok settings

/-- The wording of settings that are wrong. -/
def settingsMessage (path : Path) (fault : SettingsFault) : String :=
  s!"Invalid configuration {path.text}: {fault.message}"

/-- The paths that a request names. -/
def Request.paths (r : Request) : List Path :=
  r.settings.toList ++
    match r.command with
    | .compile input _ => [input]
    | .list directory => [directory]

/-- Runs a request. -/
def Request.run (disk : Disk) (r : Request) : Outcome :=
  match r.settingsIn disk with
  | .error (path, fault) => { exit := 3, errors := Outcome.errorLine (settingsMessage path fault) }
  | .ok settings => r.command.run disk settings

/-- The name and the version of the program. -/
def versionText : String := "metaschema 0.1.0\n"

/-- The options that every command takes, a line each. -/
def commonOptions : List String :=
  ["  -c, --config <CONFIG>  Path to configuration file (YAML or JSON)",
   "  -v, --verbose...       Increase log verbosity (-v info, -vv debug)",
   "  -h, --help             Print help"]

/-- The lines of the help on a topic. -/
def Topic.lines : Topic → List String
  | .program =>
    ["Metaschema compiler CLI",
     "",
     "Usage: metaschema [OPTIONS] <COMMAND>",
     "",
     "Commands:",
     "  compile  Compile a schema family, or every family in a directory",
     "  list     List the families a directory compile would pick up",
     "  help     Print this message or the help of the given subcommand(s)",
     "",
     "Options:"] ++ commonOptions ++ ["  -V, --version          Print version"]
  | .compile =>
    ["Compile a schema family, or every family in a directory",
     "",
     "Usage: metaschema compile [OPTIONS] <INPUT>",
     "",
     "Arguments:",
     "  <INPUT>  Top-level schema document or directory of families",
     "",
     "Options:",
     "  -f, --format <FORMAT>  Output format [default: summary] " ++
       "[possible values: summary, json, yaml]"] ++ commonOptions
  | .list =>
    ["List the families a directory compile would pick up",
     "",
     "Usage: metaschema list [OPTIONS] <DIR>",
     "",
     "Arguments:",
     "  <DIR>  Directory to scan",
     "",
     "Options:"] ++ commonOptions

/-- The help on a topic. -/
def Topic.text (topic : Topic) : String := String.join (topic.lines.map (· ++ "\n"))

/-- Runs the program with its arguments. -/
def runArguments (disk : Disk) (arguments : List String) : Outcome :=
  match Request.ofArguments arguments with
  | .ok r => r.run disk
  | .error .version => .success versionText
  | .error (.help topic) => .success topic.text
  | .error .misuse => { exit := 2, errors := Topic.program.text }

end SchemaFamily
