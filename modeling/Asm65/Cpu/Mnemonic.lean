import Asm65.Text.Column

/-!
# Instruction names and addressing modes

The mnemonics of both processors and the forms an operand can take in machine code.
-/

namespace Asm65
set_option autoImplicit false

inductive Mnemonic where
  | adc | and | asl | bcc | bcs | beq | bit | bmi | bne | bpl | bra | brk | bvc | bvs
  | clc | cld | cli | clv | cmp | cpx | cpy | dec | dex | dey | eor | inc | inx | iny
  | jmp | jsr | lda | ldx | ldy | lsr | nop | ora | pha | php | phx | phy | pla | plp | plx | ply
  | rol | ror | rti | rts | sbc | sec | sed | sei | sta | stx | sty | stz
  | tax | tay | trb | tsb | tsx | txa | txs | tya
  deriving DecidableEq

namespace Mnemonic

def all : List Mnemonic :=
  [.adc, .and, .asl, .bcc, .bcs, .beq, .bit, .bmi, .bne, .bpl, .bra, .brk, .bvc, .bvs,
   .clc, .cld, .cli, .clv, .cmp, .cpx, .cpy, .dec, .dex, .dey, .eor, .inc, .inx, .iny,
   .jmp, .jsr, .lda, .ldx, .ldy, .lsr, .nop, .ora, .pha, .php, .phx, .phy, .pla, .plp, .plx, .ply,
   .rol, .ror, .rti, .rts, .sbc, .sec, .sed, .sei, .sta, .stx, .sty, .stz,
   .tax, .tay, .trb, .tsb, .tsx, .txa, .txs, .tya]

/-- The upper-case spelling. -/
def name : Mnemonic → String
  | .adc => "ADC" | .and => "AND" | .asl => "ASL" | .bcc => "BCC" | .bcs => "BCS" | .beq => "BEQ"
  | .bit => "BIT" | .bmi => "BMI" | .bne => "BNE" | .bpl => "BPL" | .bra => "BRA" | .brk => "BRK"
  | .bvc => "BVC" | .bvs => "BVS" | .clc => "CLC" | .cld => "CLD" | .cli => "CLI" | .clv => "CLV"
  | .cmp => "CMP" | .cpx => "CPX" | .cpy => "CPY" | .dec => "DEC" | .dex => "DEX" | .dey => "DEY"
  | .eor => "EOR" | .inc => "INC" | .inx => "INX" | .iny => "INY" | .jmp => "JMP" | .jsr => "JSR"
  | .lda => "LDA" | .ldx => "LDX" | .ldy => "LDY" | .lsr => "LSR" | .nop => "NOP" | .ora => "ORA"
  | .pha => "PHA" | .php => "PHP" | .phx => "PHX" | .phy => "PHY" | .pla => "PLA" | .plp => "PLP"
  | .plx => "PLX" | .ply => "PLY" | .rol => "ROL" | .ror => "ROR" | .rti => "RTI" | .rts => "RTS"
  | .sbc => "SBC" | .sec => "SEC" | .sed => "SED" | .sei => "SEI" | .sta => "STA" | .stx => "STX"
  | .sty => "STY" | .stz => "STZ" | .tax => "TAX" | .tay => "TAY" | .trb => "TRB" | .tsb => "TSB"
  | .tsx => "TSX" | .txa => "TXA" | .txs => "TXS" | .tya => "TYA"

/-- The mnemonic with exactly this upper-case spelling. -/
def ofName? (name : String) : Option Mnemonic :=
  all.find? (·.name == name)

end Mnemonic

/-- The addressing modes, each with its own operand size. -/
inductive Mode where
  | implied
  | accumulator
  | immediate
  | zeroPage
  | zeroPageX
  | zeroPageY
  | absolute
  | absoluteX
  | absoluteY
  /-- `(abs)` -/
  | indirect
  /-- `(zp,X)` -/
  | indexedIndirect
  /-- `(zp),Y` -/
  | indirectIndexed
  /-- `(zp)` -/
  | zeroPageIndirect
  /-- `(abs,X)` -/
  | absoluteIndexedIndirect
  | relative
  deriving DecidableEq

namespace Mode

def all : List Mode :=
  [.implied, .accumulator, .immediate, .zeroPage, .zeroPageX, .zeroPageY, .absolute, .absoluteX, .absoluteY,
   .indirect, .indexedIndirect, .indirectIndexed, .zeroPageIndirect, .absoluteIndexedIndirect, .relative]

/-- The name used in messages. -/
def name : Mode → String
  | .implied => "Implied"
  | .accumulator => "Accumulator"
  | .immediate => "Immediate"
  | .zeroPage => "ZeroPage"
  | .zeroPageX => "ZeroPageX"
  | .zeroPageY => "ZeroPageY"
  | .absolute => "Absolute"
  | .absoluteX => "AbsoluteX"
  | .absoluteY => "AbsoluteY"
  | .indirect => "Indirect"
  | .indexedIndirect => "IndexedIndirect"
  | .indirectIndexed => "IndirectIndexed"
  | .zeroPageIndirect => "ZeroPageIndirect"
  | .absoluteIndexedIndirect => "AbsoluteIndexedIndirect"
  | .relative => "Relative"

/-- How many operand bytes follow the opcode. -/
def operandSize : Mode → Nat
  | .implied | .accumulator => 0
  | .absolute | .absoluteX | .absoluteY | .indirect | .absoluteIndexedIndirect => 2
  | _ => 1

end Mode

end Asm65
