import Asm65.Cpu.Mnemonic

/-!
# Opcodes

Both processors share the instructions of the older one, which come in families: an opcode is a base
per instruction plus an offset per addressing mode. The newer processor adds instructions and modes
and changes none.
-/

namespace Asm65
set_option autoImplicit false

/-- The processors that can be assembled for. -/
inductive Cpu where
  | mos6502
  | wdc65c02
  deriving DecidableEq, Inhabited

namespace Opcode

/-- Base opcodes of the accumulator instructions. -/
def accumulatorBase? : Mnemonic → Option UInt8
  | .ora => some 0x00
  | .and => some 0x20
  | .eor => some 0x40
  | .adc => some 0x60
  | .sta => some 0x80
  | .lda => some 0xa0
  | .cmp => some 0xc0
  | .sbc => some 0xe0
  | _ => none

def accumulatorOffset? : Mode → Option UInt8
  | .immediate => some 0x09
  | .zeroPage => some 0x05
  | .zeroPageX => some 0x15
  | .absolute => some 0x0d
  | .absoluteX => some 0x1d
  | .absoluteY => some 0x19
  | .indexedIndirect => some 0x01
  | .indirectIndexed => some 0x11
  | _ => none

/-- An accumulator instruction; nothing can be stored to an immediate operand. -/
def accumulator? (m : Mnemonic) (mode : Mode) : Option UInt8 :=
  if m = .sta ∧ mode = .immediate then none
  else do return (← accumulatorBase? m) + (← accumulatorOffset? mode)

/-- Base opcodes of the instructions that read, modify and write memory. -/
def modifyBase? : Mnemonic → Option UInt8
  | .asl => some 0x00
  | .rol => some 0x20
  | .lsr => some 0x40
  | .ror => some 0x60
  | .dec => some 0xc0
  | .inc => some 0xe0
  | _ => none

def modifyOffset? : Mode → Option UInt8
  | .zeroPage => some 0x06
  | .zeroPageX => some 0x16
  | .absolute => some 0x0e
  | .absoluteX => some 0x1e
  | _ => none

/-- A read-modify-write instruction; the shifts also work on the accumulator. -/
def modify? (m : Mnemonic) (mode : Mode) : Option UInt8 := do
  let base ← modifyBase? m
  if mode = .accumulator then
    if base < 0x80 then some (base + 0x0a) else none
  else return base + (← modifyOffset? mode)

/-- Instructions without operand. -/
def implied? : Mnemonic → Option UInt8
  | .brk => some 0x00 | .clc => some 0x18 | .cld => some 0xd8 | .cli => some 0x58 | .clv => some 0xb8
  | .dex => some 0xca | .dey => some 0x88 | .inx => some 0xe8 | .iny => some 0xc8 | .nop => some 0xea
  | .pha => some 0x48 | .php => some 0x08 | .pla => some 0x68 | .plp => some 0x28 | .rti => some 0x40
  | .rts => some 0x60 | .sec => some 0x38 | .sed => some 0xf8 | .sei => some 0x78 | .tax => some 0xaa
  | .tay => some 0xa8 | .tsx => some 0xba | .txa => some 0x8a | .txs => some 0x9a | .tya => some 0x98
  | _ => none

/-- Conditional branches. -/
def branch? : Mnemonic → Option UInt8
  | .bpl => some 0x10 | .bmi => some 0x30 | .bvc => some 0x50 | .bvs => some 0x70
  | .bcc => some 0x90 | .bcs => some 0xb0 | .bne => some 0xd0 | .beq => some 0xf0
  | _ => none

/-- Instructions outside the families. -/
def irregular? : Mnemonic → Mode → Option UInt8
  | .bit, .zeroPage => some 0x24 | .bit, .absolute => some 0x2c
  | .cpx, .immediate => some 0xe0 | .cpx, .zeroPage => some 0xe4 | .cpx, .absolute => some 0xec
  | .cpy, .immediate => some 0xc0 | .cpy, .zeroPage => some 0xc4 | .cpy, .absolute => some 0xcc
  | .jmp, .absolute => some 0x4c | .jmp, .indirect => some 0x6c
  | .jsr, .absolute => some 0x20
  | .ldx, .immediate => some 0xa2 | .ldx, .zeroPage => some 0xa6 | .ldx, .zeroPageY => some 0xb6
  | .ldx, .absolute => some 0xae | .ldx, .absoluteY => some 0xbe
  | .stx, .zeroPage => some 0x86 | .stx, .zeroPageY => some 0x96 | .stx, .absolute => some 0x8e
  | .sty, .zeroPage => some 0x84 | .sty, .zeroPageX => some 0x94 | .sty, .absolute => some 0x8c
  | .ldy, .immediate => some 0xa0 | .ldy, .zeroPage => some 0xa4 | .ldy, .zeroPageX => some 0xb4
  | .ldy, .absolute => some 0xac | .ldy, .absoluteX => some 0xbc
  | _, _ => none

/-- The instructions of the older processor. -/
def base? (m : Mnemonic) (mode : Mode) : Option UInt8 :=
  match mode with
  | .implied => implied? m
  | .relative => branch? m
  | _ => accumulator? m mode <|> modify? m mode <|> irregular? m mode

/-- What the newer processor adds. -/
def added? : Mnemonic → Mode → Option UInt8
  | .ora, .zeroPageIndirect => some 0x12 | .and, .zeroPageIndirect => some 0x32
  | .eor, .zeroPageIndirect => some 0x52 | .adc, .zeroPageIndirect => some 0x72
  | .sta, .zeroPageIndirect => some 0x92 | .lda, .zeroPageIndirect => some 0xb2
  | .cmp, .zeroPageIndirect => some 0xd2 | .sbc, .zeroPageIndirect => some 0xf2
  | .bit, .immediate => some 0x89 | .bit, .zeroPageX => some 0x34 | .bit, .absoluteX => some 0x3c
  | .inc, .accumulator => some 0x1a | .dec, .accumulator => some 0x3a
  | .jmp, .absoluteIndexedIndirect => some 0x7c
  | .bra, .relative => some 0x80
  | .phx, .implied => some 0xda | .phy, .implied => some 0x5a
  | .plx, .implied => some 0xfa | .ply, .implied => some 0x7a
  | .stz, .zeroPage => some 0x64 | .stz, .zeroPageX => some 0x74
  | .stz, .absolute => some 0x9c | .stz, .absoluteX => some 0x9e
  | .trb, .zeroPage => some 0x14 | .trb, .absolute => some 0x1c
  | .tsb, .zeroPage => some 0x04 | .tsb, .absolute => some 0x0c
  | _, _ => none

/-- An absolute jump. -/
def jump : UInt8 := 0x4c

/-- A relative branch that is always taken. -/
def branchAlways : UInt8 := 0x80

/-- The branch taken exactly when the given one is not. -/
def inverted (op : UInt8) : UInt8 := op ^^^ 0x20

end Opcode

namespace Cpu

/-- The name on the command line and in messages. -/
def name : Cpu → String
  | .mos6502 => "6502"
  | .wdc65c02 => "65c02"

/-- The opcode of an instruction in an addressing mode, if this processor has it. -/
def opcode? (cpu : Cpu) (m : Mnemonic) (mode : Mode) : Option UInt8 :=
  match cpu with
  | .mos6502 => Opcode.base? m mode
  | .wdc65c02 => Opcode.added? m mode <|> Opcode.base? m mode

def has (cpu : Cpu) (m : Mnemonic) (mode : Mode) : Bool := (cpu.opcode? m mode).isSome

/-- Whether the processor can jump with a relative branch. -/
def hasBranchAlways (cpu : Cpu) : Bool := cpu.has .bra .relative

/-- The instruction of this processor that a word names, in any mixture of cases. -/
def mnemonic? (cpu : Cpu) (word : String) : Option Mnemonic :=
  (Mnemonic.ofName? (Text.upper word)).filter fun m => Mode.all.any (cpu.has m)

end Cpu

/-- A branch condition, given by the opcode of the branch taken when it holds. -/
structure Condition where
  opcode : UInt8
  deriving DecidableEq

namespace Condition

/-- The condition that a word names, in any mixture of cases. -/
def ofWord? (word : String) : Option Condition :=
  match Text.upper word with
  | "EQ" => some ⟨0xf0⟩
  | "NE" => some ⟨0xd0⟩
  | "CS" | "GE" => some ⟨0xb0⟩
  | "CC" | "LT" => some ⟨0x90⟩
  | "MI" => some ⟨0x30⟩
  | "PL" => some ⟨0x10⟩
  | "VS" => some ⟨0x70⟩
  | "VC" => some ⟨0x50⟩
  | _ => none

/-- The condition that holds exactly when this one does not. -/
def invert (c : Condition) : Condition := ⟨Opcode.inverted c.opcode⟩

end Condition

end Asm65
