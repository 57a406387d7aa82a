import Asm65.Segment
import Asm65.Symbol.Basic

/-!
# Object modules

A module is three segments, its symbols by number, and its uses: for each place that an address is written
to, the address whose final value belongs there.
-/

namespace Asm65
set_option autoImplicit false

structure Object where
  segments : PerSpace Segment := .const .empty
  symbols : Std.ExtTreeMap SymbolId Symbol compare := ∅
  /-- The address to be written at each site once its final value is known. -/
  uses : Std.ExtTreeMap Address Address compare := ∅
  deriving DecidableEq

namespace Object

def segment (o : Object) (s : Space) : Segment := o.segments.get s

def addSymbol (o : Object) (s : Symbol) : Object := { o with symbols := o.symbols.insert s.id s }

def addUse (o : Object) (site value : Address) : Object := { o with uses := o.uses.insert site value }

/-- The name of the symbol with this number. -/
def symbolName? (o : Object) (id : SymbolId) : Option String := (o.symbols[id]?).map (·.name)

/-- The public symbols that the module defines. -/
def publics (o : Object) : List Symbol := o.symbols.values.filter (·.isProvided)

/-- The symbols that the module refers to and does not define. -/
def externals (o : Object) : List Symbol := o.symbols.values.filter (·.address.isExternal)

/-- The symbols that go into the object file. -/
def exported (o : Object) : List Symbol := o.symbols.values.filter (·.isExported)

end Object

end Asm65
