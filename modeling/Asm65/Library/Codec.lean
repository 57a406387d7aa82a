import Asm65.Library.Basic
import Asm65.Object.Codec

/-!
# Library files

A version, the modules after their number, and the index after its size, sorted by name.
-/

namespace Asm65.Library
set_option autoImplicit false
open Binary

/-- The version of the format. -/
def version : UInt16 := 1

def encodeEntry (entry : String × UInt16) : List UInt8 := string entry.1 ++ word entry.2

def encode (l : Library) : Except Cause (List UInt8) := do
  let modules ← count "library modules" l.objects.size
  let objects ← l.objects.toList.mapM Object.encode
  let names ← count "library symbols" l.index.size
  return word version ++ modules ++ objects.flatten ++ names ++ l.index.toList.flatMap encodeEntry

/-- An entry of the index of a library with this many modules. -/
def decodeEntry (modules : Nat) : Read (String × UInt16) := do
  let name ← readString
  let i ← readWord
  if i.toNat < modules then return (name, i) else throw (.missingModule name i.toNat)

def decode : Read Library := do
  let v ← readWord
  if v != version then throw (.badLibraryVersion v.toNat)
  let nModules ← readWord
  let objects ← repeated Object.decode nModules.toNat #[]
  let nNames ← readWord
  let entries ← repeated (decodeEntry objects.size) nNames.toNat #[]
  let index := entries.foldl (fun m e => m.insert e.1 e.2) (∅ : Std.ExtTreeMap String UInt16 compare)
  return { objects, index }

/-- The library that a whole file holds. -/
def ofBytes (bytes : List UInt8) : Except Cause Library := readAll decode .trailingLibraryBytes bytes

end Asm65.Library
