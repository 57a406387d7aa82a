import Asm65.Binary

/-!
# Addresses in object files

A tag for the origin, the value, the symbol number of an external, and, except for constants, the part.
A relative address has a flag byte in front.
-/

namespace Asm65
set_option autoImplicit false

namespace Origin

def tag : Origin → UInt8
  | .absolute => 0
  | .space .code => 1
  | .space .data => 2
  | .space .zeroPage => 3
  | .external _ => 4
  | .undefined => 0xff

end Origin

namespace Address
open Binary

/-- The byte in front of a relative address; no origin has this tag. -/
def relativeFlag : UInt8 := 0x80

def encode (a : Address) : List UInt8 :=
  (if a.relative then [relativeFlag] else [])
    ++ [a.origin.tag]
    ++ word a.value
    ++ (match a.origin with
        | .external id => word id
        | _ => [])
    ++ (if a.isConst then [] else [UInt8.ofNat a.part.rank])

/-- Reads what follows an origin's tag and the value. -/
def decodeOrigin (tag : UInt8) : Read Origin :=
  match tag.toNat with
  | 0 => return .absolute
  | 1 => return .space .code
  | 2 => return .space .data
  | 3 => return .space .zeroPage
  | 4 => return .external (← readWord)
  | 0xff => return .undefined
  | t => throw (.badOriginTag (Int.bmod t 256))

def decodePart : Read Part := do
  match (← readByte).toNat with
  | 0 => return .word
  | 1 => return .low
  | 2 => return .high
  | p => throw (.badPart p)

def decode : Read Address := do
  let first ← readByte
  let relative := first == relativeFlag
  let tag ← if relative then readByte else pure first
  let value ← readWord
  let origin ← decodeOrigin tag
  let part ← if origin == .absolute then pure .word else decodePart
  return { origin, value, part, relative }

end Address

end Asm65
