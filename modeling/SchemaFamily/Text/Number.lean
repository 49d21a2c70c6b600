/-
  Unsigned numbers in text. Digits are taken from the left, and the first thing wrong decides: a
  character that is no digit, or a value past the bound. A single `+` may stand in front.
-/

namespace SchemaFamily

/-- Why a text is no number. -/
inductive NumberFault where
  | empty
  | invalidDigit
  | tooLarge
deriving DecidableEq, Repr

/-- The wording of a fault. -/
def NumberFault.message : NumberFault → String
  | .empty => "cannot parse integer from empty string"
  | .invalidDigit => "invalid digit found in string"
  | .tooLarge => "number too large to fit in target type"

/-- The value of an ASCII digit below `radix`, letters in either case standing for ten and up. -/
def digitValue? (radix : Nat) (c : Char) : Option Nat :=
  let value? :=
    if '0' ≤ c ∧ c ≤ '9' then some (c.toNat - '0'.toNat)
    else if 'a' ≤ c ∧ c ≤ 'z' then some (c.toNat - 'a'.toNat + 10)
    else if 'A' ≤ c ∧ c ≤ 'Z' then some (c.toNat - 'A'.toNat + 10)
    else none
  value?.filter (· < radix)

/-- The value of `value` followed by the digits `cs`, at most `bound`. -/
def readDigits (radix bound value : Nat) : List Char → Except NumberFault Nat
  | [] => .ok value
  | c :: cs =>
    match digitValue? radix c with
    | none => .error .invalidDigit
    | some d =>
      if value * radix + d ≤ bound then readDigits radix bound (value * radix + d) cs
      else .error .tooLarge

/-- The value of a text of digits in `radix`, at most `bound`. -/
def readUnsigned (radix bound : Nat) : List Char → Except NumberFault Nat
  | [] => .error .empty
  | ['+'] => .error .invalidDigit
  | '+' :: cs => readDigits radix bound 0 cs
  | cs => readDigits radix bound 0 cs

/-- The greatest 32-bit number. -/
def maxWord32 : Nat := Nat.pow 2 32 - 1

/-- The greatest 64-bit number. -/
def maxWord64 : Nat := Nat.pow 2 64 - 1

end SchemaFamily
