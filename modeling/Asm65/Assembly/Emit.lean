import Asm65.Assembly.State

/-!
# Writing operands

A constant is written as it is; an address that is not known yet as zeros; any other address as the bytes of
its value within the module, with a use recorded at the first byte.
-/

namespace Asm65.Assembler
set_option autoImplicit false

/-- Records that `value` belongs at the next byte. -/
def addUse (s : Assembler) (value : Address) : Assembler :=
  { s with uses := s.uses.insert s.here value }

/-- Writes a one-byte operand. An address must be in the zero page or select a byte, a constant must fit. -/
def emitByteOperand (s : Assembler) (pos : Position) (a : Address) : Assembler :=
  let s := s.log (.operand s.here a)
  match a.origin with
  | .absolute =>
    let s := if a.fitsByte then s else s.record (.at_ (.valueTooLarge a) pos)
    s.emit a.value.toUInt8
  | .undefined => s.emit 0
  | origin =>
    match a.part with
    | .word =>
      if origin = .space .zeroPage then (s.addUse { a with part := .low }).emit a.value.toUInt8
      else (s.record (.at_ (.wordAsByte a) pos)).emit 0
    | part => (s.addUse a).emit (part.apply a.value).toUInt8

/-- Writes a word, low byte first. -/
def emitWord (s : Assembler) (a : Address) : Assembler :=
  let s := s.log (.operand s.here a)
  let (s, v) := match a.origin with
    | .absolute => (s, a.value)
    | .undefined => (s, 0)
    | _ => (s.addUse a, a.part.apply a.value)
  (s.emit v.toUInt8).emit (v >>> 8).toUInt8

/-- Writes the address of a jump or of a vector, which must be a whole one. -/
def emitPointer (s : Assembler) (pos : Position) (a : Address) : Assembler :=
  if a.part != .word then
    let s := s.log (.operand s.here a)
    (s.record (.at_ (.byteAsPointer a) pos)).emitWord (.constant 0)
  else s.emitWord a

end Asm65.Assembler
