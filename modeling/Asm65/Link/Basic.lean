import Asm65.Diagnostics
import Asm65.Library.Basic

/-!
# Loading modules

The linker appends each module's segments to its own, enters the module's names among the globals, and
patches what the module's uses ask for: at once where the value is known, later where it is external.
-/

namespace Asm65
set_option autoImplicit false

/-- The load address of each space. -/
abbrev Bases := PerSpace UInt16

/-- What is known of a name that modules share. -/
inductive Global where
  /-- Asked for by a module and not defined yet. -/
  | wanted (module : String)
  | defined (value : UInt16) (space : Option Space) (module : String)
  deriving DecidableEq

namespace Global

def isWanted : Global → Bool
  | .wanted _ => true
  | .defined .. => false

end Global

/-- A use of an external name, patched when all modules are loaded. -/
structure Fixup where
  space : Space
  offset : Nat
  name : String
  /-- Added to the value of the name. -/
  extra : UInt16
  part : Part
  relative : Bool
  module : String
  deriving DecidableEq

/-- What the linker did, for its trace. -/
inductive LinkEvent where
  | loading (module : String)
  | library (name : String) (modules : Nat)
  | resolves (module name : String)
  deriving DecidableEq

namespace LinkEvent

def message : LinkEvent → String
  | .loading m => "loading " ++ m
  | .library name n => "library " ++ name ++ " with " ++ toString n ++ " modules"
  | .resolves m name => m ++ " resolves " ++ name

end LinkEvent

structure Linker where
  bases : Bases
  segments : PerSpace Segment := .const .empty
  globals : Std.ExtTreeMap String Global compare := ∅
  /-- In the order they are to be applied. -/
  fixups : Array Fixup := #[]
  shelves : List Shelf := []
  /-- Names of the loaded modules, in load order. -/
  modules : Array String := #[]
  diagnostics : Diagnostics := {}
  /-- What happened, latest first. -/
  journal : List LinkEvent := []

namespace Linker

def record (l : Linker) (cause : Cause) : Linker := { l with diagnostics := l.diagnostics.record ⟨cause, none⟩ }

def log (l : Linker) (e : LinkEvent) : Linker := { l with journal := e :: l.journal }

/-- The final value of an address of a module whose segments start at `offsets`: relocatable addresses move
with their segment, all others keep their value. -/
def relocate (bases : Bases) (offsets : PerSpace Nat) (a : Address) : UInt16 :=
  match a.space? with
  | some s => bases.get s + UInt16.ofNat (offsets.get s) + a.value
  | none => a.value

/-- The bytes that stand for a value, or nothing if it is wanted as a distance that a byte cannot hold. `site`
is the final address of the first byte. -/
def patchBytes? (site value : UInt16) (part : Part) (relative : Bool) : Option (List UInt8) :=
  if relative then
    let distance := value - (site + 1)
    if distance < 0x80 || distance ≥ 0xff80 then some [distance.toUInt8] else none
  else
    match part with
    | .word => some [value.toUInt8, (value >>> 8).toUInt8]
    | part => some [(part.apply value).toUInt8]

/-- Writes a value at a place of a segment. -/
def patch (l : Linker) (space : Space) (offset : Nat) (value : UInt16) (part : Part) (relative : Bool)
    (module : String) : Linker :=
  let site := l.bases.get space + UInt16.ofNat offset
  match patchBytes? site value part relative with
  | none => l.record (.relativeTooFar module value site)
  | some bytes =>
    if offset + bytes.length ≤ (l.segments.get space).size then
      { l with segments := l.segments.modify space (·.overwrite offset bytes) }
    else l.record (.patchOutOfSegment module space offset)

/-- Enters a public symbol. -/
def define (l : Linker) (name : String) (value : UInt16) (space : Option Space) (module : String) : Linker :=
  match l.globals[name]? with
  | some (.defined _ _ first) => l.record (.definedTwice name first module)
  | _ => { l with globals := l.globals.insert name (.defined value space module) }

/-- Enters a name that a module asks for. -/
def want (l : Linker) (name module : String) : Linker :=
  { l with globals := l.globals.insertIfNew name (.wanted module) }

/-- Applies a use of a module whose segments start at `offsets`, or keeps it for later. -/
def applyUse (o : Object) (module : String) (offsets : PerSpace Nat) (l : Linker) (site value : Address) : Linker :=
  match site.space? with
  | none => l.record (.useOutOfSpace module site)
  | some space =>
    let offset := offsets.get space + site.value.toNat
    match value.origin with
    | .external id =>
      match o.symbolName? id with
      | some name =>
        { l with fixups := l.fixups.push ⟨space, offset, name, value.value, value.part, value.relative, module⟩ }
      | none => l.record (.useOfUnknownExternal module id)
    | .undefined => l.record (.useOfUndefined module site)
    | _ => l.patch space offset (relocate l.bases offsets value) value.part value.relative module

/-- Loads a module. -/
def addObject (l : Linker) (name : String) (o : Object) : Linker :=
  let offsets := l.segments.map Segment.size
  let l := l.log (.loading name)
  let l := { l with
    modules := l.modules.push name
    segments := l.segments.zipWith (fun s t => s.append t.bytes) o.segments }
  let l := o.publics.foldl
    (fun l s => l.define s.name (relocate l.bases offsets s.address) s.address.space? name) l
  let l := o.externals.foldl (fun l s => l.want s.name name) l
  o.uses.toList.foldl (fun l use => applyUse o name offsets l use.1 use.2) l

/-- Makes a library available for names that are still wanted when all modules are loaded. -/
def addLibrary (l : Linker) (name : String) (library : Library) : Linker :=
  let l := l.log (.library name library.objects.size)
  { l with shelves := l.shelves ++ [.ofLibrary name library] }

/-- The names asked for and not defined, in order. -/
def wanted (l : Linker) : List String :=
  (l.globals.toList.filter (·.2.isWanted)).map (·.1)

end Linker

end Asm65
