/-!
# Numerals

Digits of a radix from two to sixteen, the value of a digit string, and upper-case hexadecimal of a
fixed least width. Values are natural numbers: a caller that needs sixteen bits checks the bound.
-/

namespace Asm65.Numeral
set_option autoImplicit false

/-- The value of a hexadecimal digit of either case. -/
def hexValue? (c : Char) : Option Nat :=
  if '0' ≤ c ∧ c ≤ '9' then some (c.toNat - 48)
  else if 'a' ≤ c ∧ c ≤ 'f' then some (c.toNat - 87)
  else if 'A' ≤ c ∧ c ≤ 'F' then some (c.toNat - 55)
  else none

/-- The value of `c` as a digit of `radix`. -/
def digit? (radix : Nat) (c : Char) : Option Nat :=
  (hexValue? c).filter (· < radix)

def isDigit (radix : Nat) (c : Char) : Bool :=
  (digit? radix c).isSome

/-- The number that a string of digits denotes, most significant digit first. -/
def value (radix : Nat) (digits : List Char) : Nat :=
  digits.foldl (fun n c => n * radix + (digit? radix c).getD 0) 0

/-- A whole text as a number of sixteen bits: digits of `radix`, at least one, after an optional plus sign. -/
def word? (radix : Nat) (text : List Char) : Option UInt16 :=
  let digits := match text with
    | '+' :: rest => rest
    | rest => rest
  if digits.isEmpty || !digits.all (isDigit radix) then none
  else
    let n := value radix digits
    if n < 0x10000 then some (UInt16.ofNat n) else none

/-- Upper-case hexadecimal digits of `n`, with leading zeros up to `width`. -/
def hexDigits (width n : Nat) : List Char :=
  ((Nat.toDigits 16 n).map Char.toUpper).leftpad width '0'

/-- Upper-case hexadecimal text of `n`, with leading zeros up to `width`. -/
def hex (width n : Nat) : String :=
  String.ofList (hexDigits width n)

end Asm65.Numeral
