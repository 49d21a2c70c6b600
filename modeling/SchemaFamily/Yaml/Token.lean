import SchemaFamily.Yaml.ScalarReading
import SchemaFamily.Yaml.Tag

/-
  The tokens of a YAML text. Block collections are told by indentation: a line that is indented
  further opens one, a line that is indented less closes it. That a scalar is the key of a field
  shows only at the colon after it, so its place among the tokens is remembered while that can
  still come, which is on the same line and within 1024 bytes; the tokens that it needs are then
  put in front of it.
-/

namespace SchemaFamily.Yaml

/-- A piece of a YAML text. -/
inductive Token where
  | version
  | handle (name : String) (start : List UInt8)
  | documentStart
  | documentEnd
  | openBlockList
  | openBlockRecord
  | closeBlock
  | openFlowList
  | closeFlowList
  | openFlowRecord
  | closeFlowRecord
  | item
  | comma
  | key
  | value
  | anchor (name : String)
  | alias (name : String)
  | tag (tag : WrittenTag)
  | scalar (text : String) (style : Style)
deriving DecidableEq, Repr

/-- What may turn out to be the key of a field: its place among the tokens and in the text. It has
    to be a key when it begins a line of a block collection. -/
structure PossibleKey where
  index : Nat
  required : Bool
  offset : Nat
  line : Nat
  column : Nat
deriving Repr

/-- What has been read of a text: the tokens, the possible key of each flow collection that is
    open and of the text around them, innermost first, and the columns of the block collections
    that are open. `keyAllowed` tells whether a key may be next. -/
structure Scanner where
  cursor : Cursor
  tokens : Array Token := #[]
  innerKeys : List (Option PossibleKey) := []
  outerKey : Option PossibleKey := none
  columns : List Nat := []
  keyAllowed : Bool := true
deriving Repr

namespace Scanner

/-- A flow collection is open. -/
def inFlow (s : Scanner) : Bool := !s.innerKeys.isEmpty

/-- The scanner with one more token. -/
def push (s : Scanner) (token : Token) : Scanner := { s with tokens := s.tokens.push token }

/-- The scanner with a sign of `n` characters read as a token. -/
def sign (s : Scanner) (token : Token) (n : Nat) : Scanner :=
  { s.push token with cursor := s.cursor.move n }

/-- The scanner with keys allowed or not. -/
def allowKey (s : Scanner) (allowed : Bool) : Scanner := { s with keyAllowed := allowed }

/-! ## Possible keys -/

/-- The possible key of the innermost collection. -/
def possibleKey? (s : Scanner) : Option PossibleKey :=
  match s.innerKeys with
  | [] => s.outerKey
  | key :: _ => key

/-- The scanner with another possible key of the innermost collection. -/
def setKey (s : Scanner) (key : Option PossibleKey) : Scanner :=
  match s.innerKeys with
  | [] => { s with outerKey := key }
  | _ :: outer => { s with innerKeys := key :: outer }

/-- Gives up the possible key, unless it is required. -/
def dropKey (s : Scanner) : Option Scanner :=
  if s.possibleKey?.any (·.required) then none else some (s.setKey none)

/-- Remembers that what comes next may be a key, where a key is allowed. -/
def saveKey (s : Scanner) : Option Scanner :=
  if s.keyAllowed then do
    let s ← s.dropKey
    let c := s.cursor
    return s.setKey (some
      { index := s.tokens.size
        required := !s.inFlow && s.columns.head? == some c.column
        offset := c.offset, line := c.line, column := c.column })
  else some s

/-- A possible key, if its colon can still come at a place. -/
def PossibleKey.keep? (c : Cursor) : Option PossibleKey → Option (Option PossibleKey)
  | none => some none
  | some key =>
    if key.line < c.line || key.offset + 1024 < c.offset then
      if key.required then none else some none
    else some (some key)

/-- Gives up the possible keys whose colon can no longer come, unless one is required. -/
def dropStaleKeys (s : Scanner) : Option Scanner := do
  let innerKeys ← s.innerKeys.mapM (PossibleKey.keep? s.cursor)
  let outerKey ← PossibleKey.keep? s.cursor s.outerKey
  return { s with innerKeys, outerKey }

/-! ## Indentation -/

/-- Closes the block collections that stand further right than `limit`, or all of them. -/
def closeBlocks (s : Scanner) (limit : Option Nat) : Scanner :=
  if s.inFlow then s
  else
    let closed := s.columns.takeWhile fun column => limit.all (· < column)
    { s with
      columns := s.columns.drop closed.length
      tokens := s.tokens ++ (closed.map fun _ => Token.closeBlock).toArray }

/-- Opens a block collection at a column, unless one is open there or further right; its token is
    put at `index`. -/
def openBlock (s : Scanner) (column index : Nat) (token : Token) : Scanner :=
  if s.inFlow || s.columns.head?.any (column ≤ ·) then s
  else
    { s with
      columns := column :: s.columns
      tokens := s.tokens.insertIdxIfInBounds index token }

/-! ## Between tokens -/

/-- The scanner after blanks, comments and line breaks, in at most `steps` lines. Tabulators are
    blanks only where no key is allowed, and a byte order mark only at the start of a line. -/
def skipFrom : (steps : Nat) → Scanner → Scanner
  | 0, s => s
  | steps + 1, s =>
    let marked := s.cursor.column = 0 && s.cursor.rest.head? == some '\uFEFF'
    let c := if marked then s.cursor.move 1 else s.cursor
    let tabs := s.inFlow || !s.keyAllowed
    let (_, c) := c.span fun x => x == ' ' || (tabs && x == '\t')
    let (_, c) := if c.rest.head? == some '#' then c.span (!isBreak ·) else ([], c)
    if c.atBreak then
      skipFrom steps { s with cursor := c.breakLine, keyAllowed := s.keyAllowed || !s.inFlow }
    else { s with cursor := c }

/-- The scanner at its next token. -/
def skip (s : Scanner) : Scanner := skipFrom (s.cursor.rest.length + 1) s

/-! ## Tokens -/

/-- Reads the sign of an item. -/
def item (s : Scanner) : Option Scanner := do
  let s ← if s.inFlow then some s
    else if s.keyAllowed then some (s.openBlock s.cursor.column s.tokens.size .openBlockList)
    else none
  let s ← s.dropKey
  return (s.allowKey true).sign .item 1

/-- Reads the sign of a key. -/
def key (s : Scanner) : Option Scanner := do
  let s ← if s.inFlow then some s
    else if s.keyAllowed then some (s.openBlock s.cursor.column s.tokens.size .openBlockRecord)
    else none
  let s ← s.dropKey
  return (s.allowKey !s.inFlow).sign .key 1

/-- Reads the sign of a value, and puts the tokens in front of its key that show it to be one. -/
def value (s : Scanner) : Option Scanner :=
  match s.possibleKey? with
  | some key =>
    let s := { s with tokens := s.tokens.insertIdxIfInBounds key.index .key }
    let s := s.openBlock key.column key.index .openBlockRecord
    some (((s.setKey none).allowKey false).sign .value 1)
  | none => do
    let s ← if s.inFlow then some s
      else if s.keyAllowed then some (s.openBlock s.cursor.column s.tokens.size .openBlockRecord)
      else none
    return (s.allowKey !s.inFlow).sign .value 1

/-- Reads the opening of a flow collection. -/
def openFlow (s : Scanner) (token : Token) : Option Scanner := do
  let s ← s.saveKey
  return ({ s with innerKeys := none :: s.innerKeys }.allowKey true).sign token 1

/-- Reads the end of a flow collection. -/
def closeFlow (s : Scanner) (token : Token) : Option Scanner := do
  let s ← s.dropKey
  return ({ s with innerKeys := s.innerKeys.drop 1 }.allowKey false).sign token 1

/-- Reads a sign that no key goes across. -/
def comma (s : Scanner) : Option Scanner := do
  let s ← s.dropKey
  return (s.allowKey true).sign .comma 1

/-- Reads a line that begins or ends a document. -/
def marker (s : Scanner) (token : Token) : Option Scanner := do
  let s ← (s.closeBlocks none).dropKey
  return (s.allowKey false).sign token 3

/-- Reads an anchor or an alias. -/
def named (s : Scanner) (token : String → Token) : Option Scanner := do
  let s ← s.saveKey
  let (name, c) := (s.cursor.move 1).span isNameChar
  let ends := match c.rest.head? with
    | none => true
    | some x => isSeparator x || ['?', ':', ',', ']', '}', '%', '@', '`'].contains x
  if name.isEmpty || !ends then none
  else return { (s.push (token (String.ofList name))).allowKey false with cursor := c }

/-- Reads a tag. -/
def tag (s : Scanner) : Option Scanner := do
  let s ← s.saveKey
  let (tag, c) ← WrittenTag.read? s.cursor
  let ends := c.separatedAfter 0 || (s.inFlow && c.rest.head? == some ',')
  if !ends then none
  else return { (s.push (.tag tag)).allowKey false with cursor := c }

/-- Reads a plain scalar. -/
def plain (s : Scanner) : Option Scanner := do
  let s ← s.saveKey
  let indent := match s.columns.head? with
    | some column => column + 1
    | none => 0
  let found ← plainScalar? s.inFlow indent s.cursor
  return { (s.push (.scalar (String.ofList found.text) .plain)).allowKey found.fresh with
    cursor := found.next }

/-- Reads a quoted scalar. -/
def quoted (s : Scanner) (single : Bool) : Option Scanner := do
  let s ← s.saveKey
  let (text, c) ← quotedScalar? single s.cursor
  return { (s.push (.scalar (String.ofList text) .quoted)).allowKey false with cursor := c }

/-- Reads a block scalar. -/
def block (s : Scanner) (literal : Bool) : Option Scanner := do
  let s ← s.dropKey
  let (text, c) ← blockScalar? literal s.columns.head? s.cursor
  let style := if literal then .literal else .folded
  return { (s.push (.scalar (String.ofList text) style)).allowKey true with cursor := c }

/-! ## Lines before a document -/

/-- The number of at most nine digits at a place, and the place after it. -/
def versionNumber? (c : Cursor) : Option (Nat × Cursor) := do
  let (digits, c) := c.span Char.isDigit
  if digits.length > 9 then none
  else
    let n ← (readUnsigned 10 maxWord32 digits).toOption
    return (n, c)

/-- The known version of the notation that is told at a place, and the place after it. -/
def version? (c : Cursor) : Option (Token × Cursor) := do
  let (major, c) ← versionNumber? c
  if c.rest.head? == some '.' then
    let (minor, c) ← versionNumber? (c.move 1)
    if major = 1 ∧ (minor = 1 ∨ minor = 2) then return (.version, c) else none
  else none

/-- The handle and what it is short for that are told at a place, and the place after them. -/
def handleToken? (c : Cursor) : Option (Token × Cursor) := do
  let (name, more, c) ← handle? c
  let (blanks, c) := c.span isBlank
  if !more.isEmpty || blanks.isEmpty then none
  else
    let (start, c) ← tagName? true c
    if c.separatedAfter 0 then return (.handle name start, c) else none

/-- Reads a line that tells something of the document after it. -/
def directive (s : Scanner) : Option Scanner := do
  let s ← (s.closeBlocks none).dropKey
  let (name, c) := (s.cursor.move 1).span isNameChar
  let (blanks, c) := c.span isBlank
  if blanks.isEmpty then none
  else
    let (token, c) ← match String.ofList name with
      | "YAML" => version? c
      | "TAG" => handleToken? c
      | _ => none
    let (_, c) := c.span isBlank
    let (_, c) := if c.rest.head? == some '#' then c.span (!isBreak ·) else ([], c)
    if c.rest.isEmpty || c.atBreak then
      return { (s.push token).allowKey false with cursor := c.breakLine }
    else none

/-! ## The whole text -/

/-- Signs that a plain scalar cannot begin with, whatever follows. -/
def isIndicator (c : Char) : Bool := leadingIndicators.contains c

/-- Reads the token that begins with a character. -/
def token (s : Scanner) (x : Char) : Option Scanner :=
  let separated := s.cursor.separatedAfter 1
  if x == '%' && s.cursor.column == 0 then s.directive
  else if s.cursor.atMarker then s.marker (if x == '-' then .documentStart else .documentEnd)
  else
    match x with
    | '[' => s.openFlow .openFlowList
    | '{' => s.openFlow .openFlowRecord
    | ']' => s.closeFlow .closeFlowList
    | '}' => s.closeFlow .closeFlowRecord
    | ',' => s.comma
    | '*' => s.named .alias
    | '&' => s.named .anchor
    | '!' => s.tag
    | '\'' => s.quoted true
    | '"' => s.quoted false
    | '|' => if s.inFlow then none else s.block true
    | '>' => if s.inFlow then none else s.block false
    | '-' =>
      if separated then s.item
      else s.plain
    | '?' =>
      if s.inFlow || separated then s.key
      else s.plain
    | ':' =>
      if s.inFlow || separated then s.value
      else s.plain
    | x => if isIndicator x || isSeparator x then none else s.plain

/-- The tokens of what is left, at most `steps` of them. -/
def run : (steps : Nat) → Scanner → Option (List Token)
  | 0, _ => none
  | steps + 1, s => do
    let s ← s.skip.dropStaleKeys
    let s := s.closeBlocks (some s.cursor.column)
    match s.cursor.rest with
    | [] => do
      let s ← (s.closeBlocks none).dropKey
      return s.tokens.toList
    | x :: _ => do
      let s ← s.token x
      run steps s

end Scanner

/-- Characters that a text may hold. -/
def isAllowed (c : Char) : Bool :=
  let n := c.toNat
  n == 0x09 || n == 0x0A || n == 0x0D || (0x20 ≤ n && n ≤ 0x7E) || n == 0x85 ||
    (0xA0 ≤ n && n != 0xFFFE && n != 0xFFFF)

/-- The tokens of a text. -/
def tokens? (s : String) : Option (List Token) :=
  let cs := s.toList
  if cs.all isAllowed then Scanner.run (cs.length + 2) { cursor := { rest := cs } } else none

end SchemaFamily.Yaml
