import Asm65.Assembly.Branch

/-!
# Instructions

The operand of an instruction, as written, and its encoding. Where an instruction has a zero page form, it is
chosen if the operand is known to fit a byte, and otherwise the absolute form, so that an operand not known
yet takes the longer one.
-/

namespace Asm65
set_option autoImplicit false

inductive Index where
  | none
  | x
  | y
  deriving DecidableEq

/-- The forms of an operand in the source. -/
inductive Operand (α : Type) where
  | none
  | accumulator
  | immediate (a : α)
  | direct (a : α) (index : Index)
  /-- `(a)` -/
  | indirect (a : α)
  /-- `(a,X)` -/
  | indexedIndirect (a : α)
  /-- `(a),Y` -/
  | indirectIndexed (a : α)
  deriving DecidableEq

namespace Operand
variable {σ α : Type} [Arithmetic α] [Operands σ α]

/-- Reads the name of a register. -/
def expectRegister (register : String) : EStateM Error σ Unit := do
  let t ← Operands.next
  if t.identifier?.map Text.upper = some register then return
  else throw (.at_ (.registerExpected register t.lexeme) t.pos)

/-- Reads what follows an opening parenthesis. -/
def readInner : EStateM Error σ (Operand α) := do
  let a ← Expression.read
  let close ← Operands.next
  if close.isPunct .comma then
    expectRegister "X"
    Expression.expect .rparen
    return .indexedIndirect a
  else if close.isPunct .rparen then
    if ← Expression.comma then
      expectRegister "Y"
      return .indirectIndexed a
    else return .indirect a
  else Expression.refuse close (.indirectCloseExpected close.lexeme)

/-- Reads an index after an address, if there is one. -/
def readIndex (a : α) : EStateM Error σ (Operand α) := do
  if ← Expression.comma then
    let t ← Operands.next
    match t.identifier?.map Text.upper with
    | some "X" => return .direct a .x
    | some "Y" => return .direct a .y
    | _ => throw (.at_ (.indexRegisterExpected t.lexeme) t.pos)
  else return .direct a .none

/-- Reads an operand. A name `A` that stands alone is the accumulator. -/
def read : EStateM Error σ (Operand α) := do
  let t ← Operands.next
  match t.lexeme with
  | .endOfLine | .endOfFile =>
    Expression.unread t
    return .none
  | .punct .hash => return .immediate (← Expression.read)
  | .punct .lparen => readInner
  | .identifier name =>
    if Text.upper name = "A" then
      let after ← Operands.next
      Expression.unread after
      if after.endsStatement then return .accumulator
      else
        let left ← Operands.resolve name t.pos
        readIndex (← Expression.goOn left 1)
    else
      Expression.unread t
      readIndex (← Expression.read)
  | _ =>
    Expression.unread t
    readIndex (← Expression.read)

end Operand

namespace Asm

/-- Reads an operand. -/
def operand : Asm (Operand Address) := Operand.read

/-- Writes the opcode of an instruction in an addressing mode. -/
def emitOpcode (m : Mnemonic) (mode : Mode) (pos : Position) : Asm Unit := fun s =>
  match s.cpu.opcode? m mode with
  | some op => .ok () (s.emit op)
  | none => .error (.at_ (.unsupportedMode m mode) pos) s

/-- An opcode and what is written after it. -/
def emitWith (m : Mnemonic) (mode : Mode) (pos : Position) (write : Assembler → Assembler) : Asm Unit := do
  emitOpcode m mode pos
  modify write

/-- An opcode and a one-byte operand. -/
def emitWithByte (m : Mnemonic) (mode : Mode) (a : Address) (pos : Position) : Asm Unit :=
  emitWith m mode pos fun s => (s.emitByteOperand pos a).log (.narrow mode s.here a)

/-- An opcode and a word. -/
def emitWithWord (m : Mnemonic) (mode : Mode) (a : Address) (pos : Position) : Asm Unit :=
  emitWith m mode pos (·.emitWord a)

/-- An opcode and the address of a jump or of a vector. -/
def emitWithPointer (m : Mnemonic) (mode : Mode) (a : Address) (pos : Position) : Asm Unit :=
  emitWith m mode pos (·.emitPointer pos a)

/-- The zero page and absolute modes with an index. -/
def directModes : Index → Mode × Mode
  | .none => (.zeroPage, .absolute)
  | .x => (.zeroPageX, .absoluteX)
  | .y => (.zeroPageY, .absoluteY)

/-- An instruction with an address as operand, in the zero page form if that fits or is the only one. -/
def emitDirect (m : Mnemonic) (a : Address) (index : Index) (pos : Position) : Asm Unit := do
  let cpu := (← get).cpu
  let (short, long) := directModes index
  if cpu.has m short && (a.isByteSized || !cpu.has m long) then emitWithByte m short a pos
  else if m = .jmp ∨ m = .jsr then emitWithPointer m long a pos
  else emitWithWord m long a pos

/-- Writes an instruction with its operand. -/
def encode (m : Mnemonic) (operand : Operand Address) (pos : Position) : Asm Unit := do
  let cpu := (← get).cpu
  match operand with
  | .none =>
    if cpu.has m .implied then emitOpcode m .implied pos
    else if cpu.has m .accumulator then emitOpcode m .accumulator pos
    else fail (.operandMissing m) pos
  | .accumulator =>
    if cpu.has m .accumulator then emitOpcode m .accumulator pos
    else fail (.noAccumulatorForm m) pos
  | .immediate a => emitWithByte m .immediate a pos
  | .direct a .none =>
    match cpu.opcode? m .relative with
    | some op => branch op a pos
    | none => emitDirect m a .none pos
  | .direct a index => emitDirect m a index pos
  | .indirect a =>
    if cpu.has m .indirect then emitWithPointer m .indirect a pos
    else emitWithByte m .zeroPageIndirect a pos
  | .indexedIndirect a =>
    if cpu.has m .absoluteIndexedIndirect then emitWithPointer m .absoluteIndexedIndirect a pos
    else emitWithByte m .indexedIndirect a pos
  | .indirectIndexed a => emitWithByte m .indirectIndexed a pos

/-- Reads the operand of an instruction and writes both. -/
def instruction (m : Mnemonic) (pos : Position) : Asm Unit := do
  let operand ← operand
  encode m operand pos

end Asm

end Asm65
