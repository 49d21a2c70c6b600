import SchemaFamily.Report.Rendering

/-
  The arguments of the command line. Options stand anywhere; those for the settings and for the
  verbosity may stand before or after the command, and what stands after it counts. An option
  takes its value from the same argument or from the next one, and a next argument that looks like
  an option is no value. After two dashes there are only values. The first thing wrong decides,
  and so does a request for the version or for help that comes before it.
-/

namespace SchemaFamily

/-- What the program is to do. -/
inductive Command where
  | compile (input : Path) (format : Format)
  | list (directory : Path)
deriving DecidableEq, Repr

/-- A command with the file of settings, if one is given, and the verbosity. -/
structure Request where
  settings : Option Path
  verbosity : Nat
  command : Command
deriving DecidableEq, Repr

/-- The help that is asked for. -/
inductive Topic where
  | program
  | compile
  | list
deriving DecidableEq, Repr

/-- Why there is no request: something else is asked for, or the arguments are wrong. -/
inductive NoRequest where
  | version
  | help (topic : Topic)
  | misuse
deriving DecidableEq, Repr

namespace Arguments

/-- An option. -/
inductive Flag where
  | config
  | format
  | verbose
  | version
  | help
deriving DecidableEq, Repr

/-- The option of a name; the version is asked for before the command, the format after
    `compile`. -/
def named? (topic : Topic) (name : String) : Option Flag :=
  match topic, name with
  | _, "config" => some .config
  | _, "verbose" => some .verbose
  | _, "help" => some .help
  | .program, "version" => some .version
  | .compile, "format" => some .format
  | _, _ => none

/-- The option of a letter. -/
def lettered? (topic : Topic) (letter : Char) : Option Flag :=
  match topic, letter with
  | _, 'c' => some .config
  | _, 'v' => some .verbose
  | _, 'h' => some .help
  | .program, 'V' => some .version
  | .compile, 'f' => some .format
  | _, _ => none

/-- The options and values that are given. -/
structure Given where
  config : Option Path := none
  format : Option Format := none
  verbosity : Nat := 0
  values : List Path := []
deriving Repr

/-- The option takes a value. -/
def Flag.takesValue : Flag → Bool
  | .config | .format => true
  | _ => false

/-- What is given with the value of an option, which is given once and is not empty. -/
def Given.set (g : Given) (flag : Flag) (value : String) : Except NoRequest Given :=
  match flag with
  | .config =>
    if g.config.isSome || value = "" then .error .misuse
    else .ok { g with config := some ⟨value⟩ }
  | .format =>
    match g.format, Format.ofKeyword? value with
    | none, some format => .ok { g with format := some format }
    | _, _ => .error .misuse
  | _ => .error .misuse

/-- What is given with an option without a value. -/
def Given.mark (g : Given) (topic : Topic) (flag : Flag) : Except NoRequest Given :=
  match flag with
  | .verbose => .ok { g with verbosity := g.verbosity + 1 }
  | .version => .error .version
  | .help => .error (.help topic)
  | .config | .format => .error .misuse

/-- What is given with one more value, which is not empty. -/
def Given.add (g : Given) (value : String) : Except NoRequest Given :=
  if value = "" then .error .misuse else .ok { g with values := g.values ++ [⟨value⟩] }

/-- What an argument amounts to: something given, or an option whose value is next. -/
inductive Step where
  | done (g : Given)
  | wants (g : Given) (flag : Flag)

/-- The options of a group of letters; the letters after an option with a value are its value. -/
def letters (topic : Topic) (g : Given) : List Char → Except NoRequest Step
  | [] => .ok (.done g)
  | letter :: later =>
    match lettered? topic letter with
    | none => .error .misuse
    | some flag =>
      if flag.takesValue then
        match later with
        | [] => .ok (.wants g flag)
        | '=' :: value => (g.set flag (String.ofList value)).map .done
        | value => (g.set flag (String.ofList value)).map .done
      else
        match g.mark topic flag with
        | .error reason => .error reason
        | .ok g => letters topic g later

/-- The option of an argument with two dashes. -/
def long (topic : Topic) (g : Given) (cs : List Char) : Except NoRequest Step :=
  let name := cs.takeWhile (· != '=')
  match named? topic (String.ofList name), cs.drop name.length with
  | none, _ => .error .misuse
  | some flag, _ :: value =>
    if flag.takesValue then (g.set flag (String.ofList value)).map .done else .error .misuse
  | some flag, [] =>
    if flag.takesValue then .ok (.wants g flag) else (g.mark topic flag).map .done

/-- The options of an argument, if it is one of options. -/
def option? (topic : Topic) (g : Given) (argument : String) : Option (Except NoRequest Step) :=
  match argument.toList with
  | '-' :: '-' :: name => some (long topic g name)
  | '-' :: letter :: later => some (letters topic g (letter :: later))
  | _ => none

/-- The argument looks like an option. -/
def looksLikeOption (argument : String) : Bool :=
  match argument.toList with
  | '-' :: _ :: _ => true
  | _ => false

/-- What is given after a command. -/
def afterCommand (topic : Topic) (g : Given) : List String → Except NoRequest Given
  | [] => .ok g
  | "--" :: values => values.foldlM Given.add g
  | argument :: later =>
    match option? topic g argument with
    | none =>
      match g.add argument with
      | .error reason => .error reason
      | .ok g => if g.values.length ≤ 1 then afterCommand topic g later else .error .misuse
    | some (.error reason) => .error reason
    | some (.ok (.done g)) => afterCommand topic g later
    | some (.ok (.wants g flag)) =>
      match later with
      | [] => .error .misuse
      | value :: later =>
        if looksLikeOption value then .error .misuse
        else
          match g.set flag value with
          | .error reason => .error reason
          | .ok g => afterCommand topic g later

/-- The request of a command with what was given before and after it. -/
def request (topic : Topic) (before after : Given) : Except NoRequest Request :=
  match topic, after.values with
  | .compile, [input] =>
    .ok ⟨after.config.or before.config, max after.verbosity before.verbosity,
      .compile input (after.format.getD .summary)⟩
  | .list, [directory] =>
    .ok ⟨after.config.or before.config, max after.verbosity before.verbosity, .list directory⟩
  | _, _ => .error .misuse

/-- The request of a command and the arguments after it. -/
def command (before : Given) (name : String) (later : List String) : Except NoRequest Request :=
  match name with
  | "compile" => do request .compile before (← afterCommand .compile {} later)
  | "list" => do request .list before (← afterCommand .list {} later)
  | "help" =>
    match later with
    | [] | ["help"] => .error (.help .program)
    | ["compile"] => .error (.help .compile)
    | ["list"] => .error (.help .list)
    | _ => .error .misuse
  | _ => .error .misuse

/-- The request of arguments, after what was given before the command. -/
def beforeCommand (g : Given) : List String → Except NoRequest Request
  | [] => .error .misuse
  | "--" :: _ => .error .misuse
  | argument :: later =>
    match option? .program g argument with
    | none => command g argument later
    | some (.error reason) => .error reason
    | some (.ok (.done g)) => beforeCommand g later
    | some (.ok (.wants g flag)) =>
      match later with
      | [] => .error .misuse
      | value :: later =>
        if looksLikeOption value then .error .misuse
        else
          match g.set flag value with
          | .error reason => .error reason
          | .ok g => beforeCommand g later

end Arguments

/-- The request that the arguments of the program make. -/
def Request.ofArguments (arguments : List String) : Except NoRequest Request :=
  Arguments.beforeCommand {} arguments

end SchemaFamily
