import Asm65.Binary
import Asm65.IntelHex

/-!
# Target formats

What a linked image is written as, chosen by the extension of the target file.
-/

namespace Asm65
set_option autoImplicit false

inductive Target where
  /-- The bytes as they are. -/
  | binary
  | intelHex
  /-- The load address, low byte first, and the bytes. -/
  | tape
  deriving DecidableEq

namespace Target

def name : Target → String
  | .binary => "binary"
  | .intelHex => "Intel HEX"
  | .tape => "tape image"

/-- The format for a target file. -/
def ofPath (p : Path) : Target :=
  match p.extension?.map Text.lower with
  | some "hex" => .intelHex
  | some "prg" => .tape
  | some "tap" => .tape
  | _ => .binary

/-- The contents of the target file for bytes that are loaded at `base`. -/
def render (t : Target) (base : UInt16) (bytes : Array UInt8) : Except Cause (Array UInt8) :=
  match t with
  | .binary => .ok bytes
  | .tape => .ok ((Binary.word base).toArray ++ bytes)
  | .intelHex => do
    let file ← IntelHex.File.ofImage base bytes
    return (← file.text).toUTF8.data

end Target

end Asm65
