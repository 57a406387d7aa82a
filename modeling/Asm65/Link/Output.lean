import Asm65.Link.Pull

/-!
# Linking

When all modules are loaded, libraries are searched, names that nobody defines are reported, external uses
are patched and the layout is checked. A link without errors has final segments, a map of the public
symbols and a memory image.
-/

namespace Asm65
set_option autoImplicit false

/-- A line of the symbol map. -/
structure MapEntry where
  name : String
  address : UInt16
  /-- None for constants. -/
  space : Option Space
  module : String
  deriving DecidableEq

structure LinkOutput where
  segments : PerSpace Segment
  bases : Bases
  /-- Sorted by address, then name. -/
  map : List MapEntry
  modules : Array String

namespace Linker

/-- Reports the names that are asked for and not defined. -/
def reportWanted (l : Linker) : Linker :=
  l.globals.toList.foldl (fun l (name, g) =>
    match g with
    | .wanted module => l.record (.externalUndefined name module)
    | .defined .. => l) l

/-- Patches an external use, if the name is defined. -/
def applyFixup (l : Linker) (f : Fixup) : Linker :=
  match l.globals[f.name]? with
  | some (.defined value _ _) => l.patch f.space f.offset (value + f.extra) f.part f.relative f.module
  | _ => l

/-- The range of addresses of a space that is not empty. -/
def range? (l : Linker) (s : Space) : Option (Space × Nat × Nat) :=
  let start := (l.bases.get s).toNat
  let size := (l.segments.get s).size
  if size = 0 then none else some (s, start, start + size)

/-- Pairs of different ranges that share an address, in order. -/
def overlaps : List (Space × Nat × Nat) → List (Space × Space)
  | [] => []
  | (a, a0, a1) :: rest =>
    (rest.filter fun (_, b0, b1) => a0 < b1 && b0 < a1).map (fun (b, _, _) => (a, b)) ++ overlaps rest

/-- Checks that the zero page segment lies in the zero page, that every segment ends within the address
space and that no two overlap. -/
def checkLayout (l : Linker) : Linker :=
  let zeroPageEnd := l.bases.zeroPage.toNat + l.segments.zeroPage.size
  let l := if zeroPageEnd > 0x100 then l.record (.zeroPageTooLong (zeroPageEnd - 1)) else l
  let ranges := Space.all.filterMap l.range?
  let l := ranges.foldl (fun l (s, _, stop) => if stop > 0x10000 then l.record (.segmentTooLong s) else l) l
  (overlaps ranges).foldl (fun l (a, b) => l.record (.segmentsOverlap a b)) l

/-- The linker after all its work. -/
def finish (l : Linker) : Linker :=
  let l := l.pullAll.reportWanted
  let l := l.fixups.foldl applyFixup l
  l.checkLayout

def mapLe (a b : MapEntry) : Bool := a.address < b.address || (a.address == b.address && a.name ≤ b.name)

/-- The map of the defined names. -/
def symbolMap (l : Linker) : List MapEntry :=
  (l.globals.toList.filterMap fun (name, g) =>
    match g with
    | .defined value space module => some ⟨name, value, space, module⟩
    | .wanted _ => none).mergeSort mapLe

/-- The result of a linker that has finished. -/
def result (l : Linker) : Except Diagnostics LinkOutput :=
  if l.diagnostics.isEmpty then
    .ok { segments := l.segments, bases := l.bases, map := l.symbolMap, modules := l.modules }
  else .error l.diagnostics

/-- Resolves, patches and lays out all that was loaded. -/
def link (l : Linker) : Except Diagnostics LinkOutput := l.finish.result

end Linker

namespace LinkOutput

def segment (o : LinkOutput) (s : Space) : Segment := o.segments.get s

/-- Writes bytes into an image from `offset` on. -/
def blit (image : Array UInt8) (offset : Nat) (bytes : Array UInt8) : Array UInt8 :=
  image.extract 0 offset ++ bytes ++ image.extract (offset + bytes.size)

/-- Start and bytes of the segments that belong to the image and are not empty. The zero page is storage
only. -/
def spans (o : LinkOutput) : List (Nat × Array UInt8) :=
  [Space.code, .data].filterMap fun s =>
    let bytes := (o.segment s).bytes
    if bytes.isEmpty then none else some ((o.bases.get s).toNat, bytes)

/-- Code and data as one image: its load address and bytes, with zeros between the two. -/
def image (o : LinkOutput) : UInt16 × Array UInt8 :=
  match o.spans with
  | [] => (o.bases.code, #[])
  | first :: rest =>
    let start := rest.foldl (fun n (s, _) => min n s) first.1
    let stop := o.spans.foldl (fun n (s, b) => max n (s + b.size)) start
    let blank := Array.replicate (stop - start) 0
    (UInt16.ofNat start, o.spans.foldl (fun image (s, b) => blit image (s - start) b) blank)

/-- The line of a space in the map file. -/
def spaceLine (o : LinkOutput) (s : Space) : String :=
  let base := (o.bases.get s).toNat
  let size := (o.segment s).size
  let last := if size = 0 then base else base + size - 1
  Text.padRight 6 s.name ++ " $" ++ Numeral.hex 4 base ++ "-$" ++ Numeral.hex 4 last ++ " "
    ++ Text.padLeft 5 (toString size) ++ " bytes\n"

/-- The line of a symbol in the map file. -/
def mapLine (e : MapEntry) : String :=
  let space := match e.space with
    | some s => s.name
    | none => "CONST"
  "$" ++ Numeral.hex 4 e.address.toNat ++ " " ++ Text.padRight 6 space ++ " " ++ Text.padRight 24 e.name ++ " "
    ++ e.module ++ "\n"

/-- The text of the map file. -/
def mapText (o : LinkOutput) : String :=
  String.join (Space.all.map o.spaceLine) ++ "\n" ++ String.join (o.map.map mapLine)

end LinkOutput

end Asm65
