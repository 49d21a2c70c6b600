import SchemaFamily.Yaml.Plain

/-
  How a text is written as a scalar. A text with line breaks is written as a block of its lines,
  one that would read as something else in single quotes, and any other plain. Where a style
  cannot hold the text the next one is taken: plain, then single quotes, then double quotes, which
  hold every text.
-/

namespace SchemaFamily.Yaml

/-- Characters that end a line. -/
def isBreak (c : Char) : Bool :=
  c == '\n' || c == '\r' || c == '\u0085' || c == '\u2028' || c == '\u2029'

/-- Characters that separate: a space, a tabulator, a line break, or the end of text. -/
def isSeparator (c : Char) : Bool := c == ' ' || c == '\t' || c == '\x00' || isBreak c

/-- Characters that can stand for themselves. -/
def isPrintable (c : Char) : Bool :=
  let n := c.toNat
  n == 0x0A || (0x20 ≤ n && n ≤ 0x7E) ||
    (0xA0 ≤ n && n != 0xFEFF && n != 0xFFFE && n != 0xFFFF)

/-- A character that satisfies `p` stands directly before one that satisfies `q`. -/
def hasPair (p q : Char → Bool) : List Char → Bool
  | a :: b :: later => (p a && q b) || hasPair p q (b :: later)
  | _ => false

/-- A space directly before a line break. -/
def hasSpaceBreak (cs : List Char) : Bool := hasPair (· == ' ') isBreak cs

/-- A space directly after a line break. -/
def hasBreakSpace (cs : List Char) : Bool := hasPair isBreak (· == ' ') cs

/-! ## What a style can hold -/

/-- Characters that a plain scalar cannot begin with. -/
def leadingIndicators : List Char :=
  ['#', ',', '[', ']', '{', '}', '&', '*', '!', '|', '>', '\'', '"', '%', '@', '`']

/-- Separated from what follows: the next character separates, or there is none. -/
def atSeparator (cs : List Char) : Bool := cs.head?.all isSeparator

/-- Nothing in the text after its first character, which `previous` is, reads as punctuation. -/
def holdsNoPunctuation (previous : Char) : List Char → Bool
  | [] => true
  | c :: later =>
    !(c == ':' && atSeparator later) && !(c == '#' && isSeparator previous) &&
      holdsNoPunctuation c later

/-- A plain scalar can hold the text. -/
def plainHolds : List Char → Bool
  | [] => false
  | cs@(c :: later) =>
    !(leadingIndicators.contains c) &&
      !((c == '-' || c == '?' || c == ':') && atSeparator later) &&
      !("---".toList.isPrefixOf cs || "...".toList.isPrefixOf cs) &&
      !(c == ' ' || cs.getLast? == some ' ') &&
      cs.all (fun c => isPrintable c && !isBreak c) && holdsNoPunctuation c later

/-- Single quotes can hold the text. -/
def singleHolds (cs : List Char) : Bool :=
  cs.all isPrintable && !hasSpaceBreak cs && !hasBreakSpace cs

/-- A block of lines can hold the text. -/
def blockHolds (cs : List Char) : Bool :=
  cs.all isPrintable && !hasSpaceBreak cs && !(cs.getLast? == some ' ')

/-! ## Writing -/

/-- The digits of a number in upper case hexadecimal, `width` of them. -/
def hexDigits : Nat → Nat → String
  | 0, _ => ""
  | width + 1, n => hexDigits width (n / 16) ++ ((Nat.digitChar (n % 16)).toUpper).toString

/-- A character inside double quotes. -/
def escape (c : Char) : String :=
  match c with
  | '\x00' => "\\0"
  | '\x07' => "\\a"
  | '\x08' => "\\b"
  | '\x09' => "\\t"
  | '\x0a' => "\\n"
  | '\x0b' => "\\v"
  | '\x0c' => "\\f"
  | '\x0d' => "\\r"
  | '\x1b' => "\\e"
  | '"' => "\\\""
  | '\\' => "\\\\"
  | '\u0085' => "\\N"
  | '\u2028' => "\\L"
  | '\u2029' => "\\P"
  | c =>
    if isPrintable c then c.toString
    else if c.toNat ≤ 0xFF then "\\x" ++ hexDigits 2 c.toNat
    else "\\u" ++ hexDigits 4 c.toNat

/-- The text in double quotes. -/
def doubleQuoted (cs : List Char) : String := "\"" ++ String.join (cs.map escape) ++ "\""

/-- The text with each line but the first indented, an empty one left empty; `fresh` at the start
    of a line. -/
def indentLines (indent : Nat) (fresh : Bool) : List Char → List Char
  | [] => []
  | c :: later =>
    if isBreak c then c :: indentLines indent true later
    else if fresh then List.replicate indent ' ' ++ c :: indentLines indent false later
    else c :: indentLines indent false later

/-- The text in single quotes, its own ones doubled. -/
def singleQuoted (indent : Nat) (cs : List Char) : String :=
  let doubled := cs.flatMap fun c => if c = '\'' then ['\'', '\''] else [c]
  let lines := indentLines indent false doubled
  let closing := if cs.getLast?.any isBreak then List.replicate indent ' ' else []
  "'" ++ String.ofList (lines ++ closing) ++ "'"

/-- How the line breaks at the end of a block are kept. -/
def chomping (cs : List Char) : String :=
  match cs.reverse with
  | [] => "-"
  | c :: before =>
    if !isBreak c then "-"
    else if before.head?.all isBreak then "+"
    else ""

/-- The text as a block of lines, up to the end of its last line. -/
def block (indent : Nat) (cs : List Char) : String :=
  let hint := if cs.head?.any fun c => c == ' ' || isBreak c then "2" else ""
  let ending := if cs.getLast?.any isBreak then "" else "\n"
  "|" ++ hint ++ chomping cs ++ "\n" ++ String.ofList (indentLines indent true cs) ++ ending

/-- The text on its line, up to the line's end; lines below are indented. -/
def scalar (indent : Nat) (s : String) : String :=
  let cs := s.toList
  if cs.contains '\n' then
    if blockHolds cs then block indent cs else doubleQuoted cs ++ "\n"
  else if !isAmbiguous s && plainHolds cs then s ++ "\n"
  else if singleHolds cs then singleQuoted indent cs ++ "\n"
  else doubleQuoted cs ++ "\n"

example : scalar 2 "" = "''\n" ∧ scalar 2 "a: b" = "'a: b'\n" := by decide +kernel
example : scalar 2 "a\nb" = "|-\n  a\n  b\n" ∧ scalar 2 "a \nb" = "\"a \\nb\"\n" := by
  decide +kernel

end SchemaFamily.Yaml
