import Asm65.Address.Codec
import Asm65.Object.Basic

/-!
# Object files

A version, the three segments, the exported symbols and the uses, each collection after its size. Reading
checks that every use lies in a segment and that external uses refer to a symbol of the file.
-/

namespace Asm65.Object
set_option autoImplicit false
open Binary

/-- The version of the format. -/
def version : UInt16 := 1

def encodeSegment (s : Segment) : Except Cause (List UInt8) := do
  return (← count "segment bytes" s.size) ++ s.bytes.toList

def encodeSymbol (s : Symbol) : List UInt8 := word s.id ++ string s.name ++ s.address.encode

def encodeUse (use : Address × Address) : List UInt8 := use.1.encode ++ use.2.encode

def encode (o : Object) : Except Cause (List UInt8) := do
  let code ← encodeSegment o.segments.code
  let data ← encodeSegment o.segments.data
  let zeroPage ← encodeSegment o.segments.zeroPage
  let symbols ← count "symbols" o.exported.length
  let uses ← count "address usages" o.uses.size
  return word version ++ code ++ data ++ zeroPage
    ++ symbols ++ o.exported.flatMap encodeSymbol
    ++ uses ++ o.uses.toList.flatMap encodeUse

def decodeSegment : Read Segment := do
  let n ← readWord
  let bytes ← take n.toNat
  return ⟨bytes.toArray⟩

/-- A symbol of a file is public unless it is external. -/
def decodeSymbol : Read Symbol := do
  let id ← readWord
  let name ← readString
  let address ← Address.decode
  return { id, name, address, isPublic := !address.isExternal }

/-- A use; `known` are the symbols of the file. -/
def decodeUse (known : Std.ExtTreeMap SymbolId Symbol compare) : Read (Address × Address) := do
  let site ← Address.decode
  if !site.isRelocatable then throw (.siteOutOfSpace site)
  let value ← Address.decode
  match value.origin with
  | .external id => if !known.contains id then throw (.unknownExternal id)
  | _ => pure ()
  return (site, value)

def decode : Read Object := do
  let v ← readWord
  if v != version then throw (.badObjectVersion v.toNat)
  let code ← decodeSegment
  let data ← decodeSegment
  let zeroPage ← decodeSegment
  let nSymbols ← readWord
  let listed ← repeated decodeSymbol nSymbols.toNat #[]
  let symbols := listed.foldl (fun m s => m.insert s.id s) (∅ : Std.ExtTreeMap SymbolId Symbol compare)
  let nUses ← readWord
  let used ← repeated (decodeUse symbols) nUses.toNat #[]
  let uses := used.foldl (fun m u => m.insert u.1 u.2) (∅ : Std.ExtTreeMap Address Address compare)
  return { segments := ⟨code, data, zeroPage⟩, symbols, uses }

/-- The object that a whole file holds. -/
def ofBytes (bytes : List UInt8) : Except Cause Object := readAll decode .trailingObjectBytes bytes

end Asm65.Object
