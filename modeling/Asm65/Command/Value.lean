import Asm65.Text.Blank
import Asm65.Text.Numeral

/-!
# Values on the command line
-/

namespace Asm65.Command
set_option autoImplicit false

/-- An address: `$` or `0x` and hexadecimal digits, or decimal digits, with blanks around it. -/
def address? (text : String) : Option UInt16 :=
  match Text.trim text.toList with
  | '$' :: digits => Numeral.word? 16 digits
  | '0' :: 'x' :: digits => Numeral.word? 16 digits
  | '0' :: 'X' :: digits => Numeral.word? 16 digits
  | digits => Numeral.word? 10 digits

/-- A count of at most thirty-two bits, with an optional sign. -/
def count? (text : String) : Option Nat :=
  let (negative, digits) := match text.toList with
    | '-' :: digits => (true, digits)
    | '+' :: digits => (false, digits)
    | digits => (false, digits)
  if digits.isEmpty || !digits.all (Numeral.isDigit 10) then none
  else
    let n := Numeral.value 10 digits
    if (negative && n != 0) || n ≥ 0x100000000 then none else some n

end Asm65.Command
