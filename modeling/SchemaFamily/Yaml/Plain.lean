import SchemaFamily.Text.Number

/-
  What a plain scalar reads as. A scalar without quotes may be read as no value, a truth value, an
  integer or a float. Integers are decimal, or have a prefix that names their radix; a decimal
  with a needless zero in front is a text.
-/

namespace SchemaFamily.Yaml

/-- The bound of the widest unsigned integers. -/
def maxWord128 : Nat := Nat.pow 2 128 - 1

/-- The scalar reads as no value. -/
def readsAsNull (s : String) : Bool := ["null", "Null", "NULL", "~"].contains s

/-- The scalar reads as a truth value. -/
def readsAsBool (s : String) : Bool :=
  ["true", "True", "TRUE", "false", "False", "FALSE"].contains s

/-- Nothing but ASCII digits. -/
def isDigits (cs : List Char) : Bool := cs.all fun c => '0' ≤ c && c ≤ '9'

/-- The scalar begins with a sign. -/
def isSigned (cs : List Char) : Bool := cs.head?.any fun c => c == '+' || c == '-'

/-- The scalar without a sign in front. -/
def dropSign : List Char → List Char
  | '+' :: cs => cs
  | '-' :: cs => cs
  | cs => cs

/-- The scalar without a `+` in front. -/
def dropPlus : List Char → List Char
  | '+' :: cs => cs
  | cs => cs

/-- A decimal with a needless zero in front. -/
def hasLeadingZero (cs : List Char) : Bool :=
  match dropSign cs with
  | '0' :: c :: later => isDigits (c :: later)
  | _ => false

/-- The radix that a prefix names, and what follows it. -/
def radixOf? : List Char → Option (Nat × List Char)
  | '0' :: 'x' :: cs => some (16, cs)
  | '0' :: 'o' :: cs => some (8, cs)
  | '0' :: 'b' :: cs => some (2, cs)
  | _ => none

/-- The digits after a sign or prefix as a number of at most `bound`. -/
def magnitude? (radix bound : Nat) (cs : List Char) : Option Nat :=
  if isSigned cs then none else (readUnsigned radix bound cs).toOption

/-- The unsigned integer of at most `bound` that a scalar reads as. -/
def unsigned? (bound : Nat) (cs : List Char) : Option Nat :=
  match radixOf? (dropPlus cs) with
  | some (radix, digits) => magnitude? radix bound digits
  | none => if hasLeadingZero cs then none else magnitude? 10 bound (dropPlus cs)

/-- The scalar reads as a negative integer of at least `-bound`. -/
def readsAsNegative (bound : Nat) : List Char → Bool
  | '-' :: cs =>
    match radixOf? cs with
    | some (radix, digits) => (magnitude? radix bound digits).isSome
    | none => !hasLeadingZero cs && (magnitude? 10 bound cs).isSome
  | _ => false

/-- The scalar reads as an integer. -/
def readsAsInteger (cs : List Char) : Bool :=
  (unsigned? maxWord128 cs).isSome || readsAsNegative (Nat.pow 2 127) cs

/-! ## Floats -/

/-- The digits of a decimal: those before and after the point, and the exponent. -/
structure Decimal where
  digits : List Char
  scale : Int
deriving Repr

/-- The exponent of a decimal, which may be missing. -/
def exponent? : List Char → Option Int
  | [] => some 0
  | e :: cs =>
    if e = 'e' ∨ e = 'E' then
      let digits := dropSign cs
      if digits.isEmpty || !isDigits digits then none
      else
        let n : Int := digits.foldl (fun n c => n * 10 + (c.toNat - '0'.toNat)) 0
        some (if cs.head? = some '-' then -n else n)
    else none

/-- A decimal with a point, an exponent, both or neither, and at least one digit. -/
def decimal? (cs : List Char) : Option Decimal :=
  let isDigit (c : Char) : Bool := '0' ≤ c && c ≤ '9'
  let whole := cs.takeWhile isDigit
  let rest := cs.dropWhile isDigit
  let (fraction, rest) := match rest with
    | '.' :: rest => (rest.takeWhile isDigit, rest.dropWhile isDigit)
    | rest => ([], rest)
  if whole.isEmpty && fraction.isEmpty then none
  else (exponent? rest).map fun e => ⟨whole ++ fraction, e - fraction.length⟩

/-- The least value that rounds past the greatest 64-bit float. -/
def floatLimit : Nat := Nat.pow 2 1024 - Nat.pow 2 970

/-- The decimal is below `floatLimit`. Beyond 400 places before the point it is not, and beyond
    400 after it is. -/
def Decimal.isFinite (d : Decimal) : Bool :=
  let digits := d.digits.dropWhile (· == '0')
  let places := digits.length + d.scale
  if digits.isEmpty || places < -400 then true
  else if places > 400 then false
  else
    let n := digits.foldl (fun n c => n * 10 + (c.toNat - '0'.toNat)) 0
    if d.scale < 0 then n < floatLimit * Nat.pow 10 d.scale.natAbs
    else n * Nat.pow 10 d.scale.natAbs < floatLimit

/-- The scalar reads as a float: a finite decimal, an infinity or no number. -/
def readsAsFloat (cs : List Char) : Bool :=
  let special := String.ofList cs
  if cs.head? = some '+' && isSigned (dropPlus cs) then false
  else
    [".inf", ".Inf", ".INF"].contains (String.ofList (dropPlus cs)) ||
      ["-.inf", "-.Inf", "-.INF", ".nan", ".NaN", ".NAN"].contains special ||
      (decimal? (dropSign cs)).any (·.isFinite)

/-- The scalar, if plain, is not read as a text, or is a text that looks like a number. -/
def isAmbiguous (s : String) : Bool :=
  s.isEmpty || readsAsNull s || readsAsBool s || readsAsInteger s.toList ||
    readsAsFloat s.toList || hasLeadingZero s.toList

example : unsigned? maxWord64 "0x1F".toList = some 31 := by decide +kernel
example : unsigned? maxWord64 "007".toList = none := by decide +kernel
example : isAmbiguous "-0b11" = true ∧ isAmbiguous "1e400" = false := by decide +kernel
example : isAmbiguous ".5" = true ∧ isAmbiguous "." = false := by decide +kernel

end SchemaFamily.Yaml
