import SchemaFamily.Yaml.Cursor

/-
  Reading scalars. A plain scalar ends before a colon or a comment that blanks set apart, and in
  a flow collection before its punctuation; quoted scalars end at their quote; a block scalar ends
  at the first line that is indented less than its first. Line breaks inside are folded, but those
  of a literal block are kept.
-/

namespace SchemaFamily.Yaml

/-- How a scalar is written. -/
inductive Style where
  | plain
  | quoted
  | literal
  | folded
deriving DecidableEq, Repr

/-! ## Plain scalars -/

/-- Punctuation of flow collections. -/
def isFlowSign (c : Char) : Bool := [',', '[', ']', '{', '}'].contains c

/-- The part of a plain scalar up to the next gap, if it is not cut short by a colon before
    punctuation. -/
def plainRun (flow : Bool) : List Char → Option (List Char)
  | [] => some []
  | c :: later =>
    if isSeparator c then some []
    else if flow && c == ':' && later.head?.any (fun x => isFlowSign x || x == '?') then none
    else if c == ':' && atSeparator later then some []
    else if flow && isFlowSign c then some []
    else (plainRun flow later).map (c :: ·)

/-- A scalar that was read: its text, the place after it, and whether the place is in a line that
    the scalar has no part of. -/
structure PlainScalar where
  text : List Char
  fresh : Bool
  next : Cursor

/-- The plain scalar that goes on after a gap, in at most `steps` parts; outside flow collections
    its lines are indented by `indent`. -/
def plainFrom (flow : Bool) (indent : Nat) : (steps : Nat) → Gap → Cursor → Option PlainScalar
  | 0, _, _ => none
  | steps + 1, lead, c =>
    if c.atMarker || c.rest.head? == some '#' then some ⟨[], !lead.breaks.isEmpty, c⟩
    else do
      let run ← plainRun flow c.rest
      if run.isEmpty then return ⟨[], !lead.breaks.isEmpty, c⟩
      else
        let c := c.move run.length
        if c.rest.head?.any fun x => isBlank x || isBreak x then
          let (gap, c) ← c.gap? indent
          if !flow && c.column < indent then
            return ⟨lead.folded ++ run, !gap.breaks.isEmpty, c⟩
          else
            let more ← plainFrom flow indent steps gap c
            return { more with text := lead.folded ++ run ++ more.text }
        else return ⟨lead.folded ++ run, false, c⟩

/-- The plain scalar at a place. -/
def plainScalar? (flow : Bool) (indent : Nat) (c : Cursor) : Option PlainScalar :=
  plainFrom flow indent (c.rest.length + 1) {} c

/-! ## Quoted scalars -/

/-- The character of an escape of one letter. -/
def escaped? : Char → Option Char
  | '0' => some '\x00'
  | 'a' => some '\x07'
  | 'b' => some '\x08'
  | 't' => some '\t'
  | '\t' => some '\t'
  | 'n' => some '\n'
  | 'v' => some '\x0b'
  | 'f' => some '\x0c'
  | 'r' => some '\r'
  | 'e' => some '\x1b'
  | ' ' => some ' '
  | '"' => some '"'
  | '/' => some '/'
  | '\\' => some '\\'
  | 'N' => some '\u0085'
  | '_' => some '\u00a0'
  | 'L' => some '\u2028'
  | 'P' => some '\u2029'
  | _ => none

/-- Number of hexadecimal digits that an escape takes. -/
def escapeWidth? : Char → Option Nat
  | 'x' => some 2
  | 'u' => some 4
  | 'U' => some 8
  | _ => none

/-- The character with a code point. -/
def character? (n : Nat) : Option Char := if n.isValidChar then some (Char.ofNat n) else none

/-- The character that an escape stands for, and the number of characters after the backslash. -/
def escape? : List Char → Option (Char × Nat)
  | [] => none
  | c :: later =>
    match escapeWidth? c with
    | none => (escaped? c).map (·, 1)
    | some width => do
      let digits := later.take width
      if digits.length < width then none
      else do
        let n ← digits.foldlM (fun n d => (digitValue? 16 d).map (n * 16 + ·)) 0
        let x ← character? n
        return (x, width + 1)

/-- A quoted scalar up to its closing quote, in at most `steps` steps, and the place after it. -/
def quotedFrom (single : Bool) : (steps : Nat) → Cursor → Option (List Char × Cursor)
  | 0, _ => none
  | steps + 1, c =>
    if c.atMarker then none
    else
      match c.rest with
      | [] => none
      | '\'' :: later =>
        if single then
          if later.head? == some '\'' then do
            let (text, c) ← quotedFrom single steps (c.move 2)
            return ('\'' :: text, c)
          else some ([], c.move 1)
        else do
          let (text, c) ← quotedFrom single steps (c.move 1)
          return ('\'' :: text, c)
      | x :: later =>
        if isBlank x || isBreak x then do
          let (gap, c) ← c.gap? 0
          let (text, c) ← quotedFrom single steps c
          return (gap.folded ++ text, c)
        else if single then do
          let (text, c) ← quotedFrom single steps (c.move 1)
          return (x :: text, c)
        else if x == '"' then some ([], c.move 1)
        else if x == '\\' then
          if later.head?.any isBreak then do
            let c := (c.move 1).breakLine
            let (breaks, c) ← breaksFrom 0 c.rest.length c
            let (text, c) ← quotedFrom single steps c
            return (breaks ++ text, c)
          else do
            let (y, n) ← escape? later
            let (text, c) ← quotedFrom single steps (c.move (n + 1))
            return (y :: text, c)
        else do
          let (text, c) ← quotedFrom single steps (c.move 1)
          return (x :: text, c)

/-- The quoted scalar whose opening quote is at a place. -/
def quotedScalar? (single : Bool) (c : Cursor) : Option (List Char × Cursor) :=
  quotedFrom single (c.rest.length + 1) (c.move 1)

/-! ## Block scalars -/

/-- What a block scalar keeps of the breaks after its last line. -/
inductive Chomping where
  | strip
  | clip
  | keep

/-- What follows the sign of a block scalar: how it is chomped, by how much it is indented if that
    is told, and how many characters tell it. -/
def blockHeader? : List Char → Option (Chomping × Option Nat × Nat)
  | a :: b :: _ =>
    match chomping? a, chomping? b, digit? a, digit? b with
    | some k, _, _, some d => if d = 0 then none else some (k, some d, 2)
    | some k, _, _, none => some (k, none, 1)
    | none, some k, some d, _ => if d = 0 then none else some (k, some d, 2)
    | none, none, some d, _ => if d = 0 then none else some (.clip, some d, 1)
    | none, _, none, _ => some (.clip, none, 0)
  | [a] =>
    match chomping? a, digit? a with
    | some k, _ => some (k, none, 1)
    | none, some d => if d = 0 then none else some (.clip, some d, 1)
    | none, none => some (.clip, none, 0)
  | [] => some (.clip, none, 0)
where
  chomping? : Char → Option Chomping
    | '-' => some .strip
    | '+' => some .keep
    | _ => none
  digit? (c : Char) : Option Nat := digitValue? 10 c

/-- The empty lines from a place on, in at most `steps` steps: their breaks, the greatest column
    that was come to, and the place after them. An indentation of 0 is not known yet. -/
def emptyLines (indent : Nat) : (steps widest : Nat) → Cursor → Option (List Char × Nat × Cursor)
  | 0, widest, c => some ([], widest, c)
  | steps + 1, widest, c =>
    let spaces := (c.rest.takeWhile (· == ' ')).length
    let c := c.move (if indent = 0 then spaces else min spaces (indent - c.column))
    let widest := max widest c.column
    match c.rest with
    | [] => some ([], widest, c)
    | x :: _ =>
      if x == '\t' && (indent == 0 || c.column < indent) then none
      else if isBreak x then
        (emptyLines indent steps widest c.breakLine).map fun (breaks, rest) =>
          (keptBreak x :: breaks, rest)
      else some ([], widest, c)

/-- What a block scalar ends with: its text without the last break, that break, the breaks of the
    empty lines after it, and the place after them. -/
structure BlockEnd where
  text : List Char
  last : List Char
  empty : List Char
  next : Cursor

/-- The lines of a block scalar that are indented by `indent`, in at most `steps` steps. `last` is
    the break before the line at hand, `empty` those of the empty lines after it, and `blank`
    tells that the line before begins with a blank. -/
def blockLines (literal : Bool) (indent : Nat) :
    (steps : Nat) → (blank : Bool) → (last empty : List Char) → Cursor → Option BlockEnd
  | 0, _, last, empty, c => some ⟨[], last, empty, c⟩
  | steps + 1, blank, last, empty, c =>
    if c.column == indent && !c.rest.isEmpty then do
      let blankHere := c.rest.head?.any isBlank
      let lead :=
        if !literal && last == ['\n'] && !blank && !blankHere then
          if empty.isEmpty then [' '] else []
        else last
      let (line, c) := c.span (!isBreak ·)
      let (last, c) := match c.rest with
        | [] => ([], c)
        | x :: _ => ([keptBreak x], c.breakLine)
      let (more, _, c) ← emptyLines indent c.rest.length 0 c
      let ending ← blockLines literal indent steps blankHere last more c
      return { ending with text := lead ++ empty ++ line ++ ending.text }
    else some ⟨[], last, empty, c⟩

/-- The block scalar whose sign is at a place, in a collection at column `parent` or in none. -/
def blockScalar? (literal : Bool) (parent : Option Nat) (c : Cursor) :
    Option (List Char × Cursor) := do
  let c := c.move 1
  let (chomping, told, n) ← blockHeader? c.rest
  let (_, c) := (c.move n).span isBlank
  let (_, c) := if c.rest.head? == some '#' then c.span (!isBreak ·) else ([], c)
  if !(c.rest.isEmpty || c.atBreak) then none
  else do
    let c := c.breakLine
    let known := told.map fun n => parent.getD 0 + n
    let (empty, widest, c) ← emptyLines (known.getD 0) c.rest.length 0 c
    let least := match parent with
      | some column => column + 1
      | none => 1
    let indent := known.getD (max widest least)
    let ending ← blockLines literal indent (c.rest.length + 1) false [] empty c
    let tail := match chomping with
      | .strip => []
      | .clip => ending.last
      | .keep => ending.last ++ ending.empty
    return (ending.text ++ tail, ending.next)

end SchemaFamily.Yaml
