import Asm65.Object.Basic

/-!
# Libraries

A library is a list of object modules and an index from each exported name to the module that defines it.
On the linker's shelf each module is taken at most once.
-/

namespace Asm65
set_option autoImplicit false

structure Library where
  objects : Array Object := #[]
  index : Std.ExtTreeMap String UInt16 compare := ∅
  deriving DecidableEq

namespace Library

/-- The label of a module in messages. -/
def label (names : List String) (i : Nat) : String := names.getD i ("module " ++ toString i)

/-- The index with the names of module `i` added; `names` label the modules. -/
def indexModule (names : List String) (index : Std.ExtTreeMap String UInt16 compare) (i : Nat) :
    List Symbol → Except Cause (Std.ExtTreeMap String UInt16 compare)
  | [] => .ok index
  | s :: rest =>
    match index[s.name]? with
    | some first => .error (.exportedTwice s.name (label names first.toNat) (label names i))
    | none => indexModule names (index.insert s.name (UInt16.ofNat i)) i rest

/-- The index of the modules from number `i` on. -/
def indexFrom (names : List String) (index : Std.ExtTreeMap String UInt16 compare) (i : Nat) :
    List Object → Except Cause (Std.ExtTreeMap String UInt16 compare)
  | [] => .ok index
  | o :: rest =>
    match indexModule names index i o.publics with
    | .ok index => indexFrom names index (i + 1) rest
    | .error cause => .error cause

/-- Bundles modules in order. No name may be exported twice. -/
def ofObjects (objects : Array Object) (names : List String) : Except Cause Library :=
  if objects.size < 0x10000 then
    (indexFrom names ∅ 0 objects.toList).map fun index => { objects, index }
  else .error (.tooManyModules objects.size)

/-- The number of the module that exports a name. -/
def find? (l : Library) (name : String) : Option Nat := (l.index[name]?).map (·.toNat)

end Library

/-- A library as the linker sees it. -/
structure Shelf where
  name : String
  library : Library
  /-- Which modules have been taken. -/
  taken : Array Bool

namespace Shelf

def ofLibrary (name : String) (library : Library) : Shelf :=
  ⟨name, library, Array.replicate library.objects.size false⟩

/-- The number of the module that exports a name and has not been taken. -/
def provider? (s : Shelf) (name : String) : Option Nat :=
  (s.library.find? name).filter fun i => s.taken[i]? == some false

/-- Takes a module, unless it has been taken before. -/
def take? (s : Shelf) (i : Nat) : Option (Object × Shelf) :=
  if s.taken[i]? = some false then
    (s.library.objects[i]?).map fun o => (o, { s with taken := s.taken.setIfInBounds i true })
  else none

/-- The name of a module in maps and messages. -/
def moduleName (s : Shelf) (i : Nat) : String := s.name ++ "[" ++ toString i ++ "]"

/-- How many modules have not been taken. -/
def left (s : Shelf) : Nat := s.taken.count false

end Shelf

end Asm65
