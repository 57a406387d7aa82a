import Asm65.Address.Basic
import Asm65.Error
import Std.Data.ExtTreeMap

/-!
# Symbols

Names are numbered from one as they are first seen; the labels that structured blocks need are numbered
from `autoLabelBase`. Naming stops before the two ranges could meet.
-/

namespace Asm65
set_option autoImplicit false

/-- The first number of the labels of structured blocks. -/
def autoLabelBase : Nat := 0x8000

structure Symbol where
  id : SymbolId
  name : String
  address : Address
  /-- Visible to other modules. -/
  isPublic : Bool := false
  /-- The pass that last defined it; 0 if it is only declared. -/
  pass : Nat := 0
  deriving DecidableEq, Inhabited

namespace Symbol

/-- A public symbol with a value of its own: what a module offers to others. -/
def isProvided (s : Symbol) : Bool := s.isPublic && !s.address.isExternal && !s.address.isUndefined

/-- Whether the symbol goes into object files: public definitions and external references. -/
def isExported (s : Symbol) : Bool := s.address.isExternal || (s.isPublic && !s.address.isUndefined)

end Symbol

/-- The numbers of the names seen so far. -/
structure IdentifierTable where
  ids : Std.ExtTreeMap String SymbolId compare := ∅

namespace IdentifierTable

/-- The number of a name, a new one on first sight. -/
def intern (t : IdentifierTable) (name : String) : Except Cause (SymbolId × IdentifierTable) :=
  match t.ids[name]? with
  | some id => .ok (id, t)
  | none =>
    let next := t.ids.size + 1
    if next < autoLabelBase then
      let id := UInt16.ofNat next
      .ok (id, ⟨t.ids.insert name id⟩)
    else .error .tooManyIdentifiers

end IdentifierTable

/-- What happened when a symbol was defined. -/
inductive Definition where
  /-- Defined for the first time, or as in the pass before. -/
  | unchanged
  /-- The address differs from the one that earlier passes saw. -/
  | moved
  /-- Already defined in this pass. -/
  | duplicate
  deriving DecidableEq

structure SymbolTable where
  entries : Std.ExtTreeMap SymbolId Symbol compare := ∅

namespace SymbolTable

def get? (t : SymbolTable) (id : SymbolId) : Option Symbol := t.entries[id]?

/-- The address of a symbol; an unknown one is undefined. -/
def address (t : SymbolTable) (id : SymbolId) : Address :=
  match t.get? id with
  | some s => s.address
  | none => .undefined

/-- Defines a symbol during a pass. A symbol that appears only after the first pass counts as moved,
since the passes before saw it undefined. -/
def define (t : SymbolTable) (id : SymbolId) (name : String) (address : Address) (pass : Nat) :
    Definition × SymbolTable :=
  match t.get? id with
  | some s =>
    if s.pass = pass then (.duplicate, t)
    else
      (if s.address = address then .unchanged else .moved,
        ⟨t.entries.insert id { s with address, pass }⟩)
  | none =>
    (if pass > 1 then .moved else .unchanged, ⟨t.entries.insert id { id, name, address, pass }⟩)

/-- Makes a symbol visible to other modules, whether it is defined yet or not. -/
def declarePublic (t : SymbolTable) (id : SymbolId) (name : String) : SymbolTable :=
  let s := (t.get? id).getD { id, name, address := .undefined }
  ⟨t.entries.insert id { s with isPublic := true }⟩

def erase (t : SymbolTable) (id : SymbolId) : SymbolTable := ⟨t.entries.erase id⟩

/-- All symbols by number. -/
def toList (t : SymbolTable) : List Symbol := t.entries.values

/-- The named symbols, without the labels of blocks. -/
def named (t : SymbolTable) : Std.ExtTreeMap SymbolId Symbol compare :=
  t.entries.filter fun id _ => id.toNat < autoLabelBase

/-- A definition is refused exactly if the symbol has been defined in the same pass. -/
theorem define_eq_duplicate_iff (t : SymbolTable) (id : SymbolId) (name : String) (a : Address) (pass : Nat) :
    (t.define id name a pass).1 = .duplicate ↔ ∃ s, t.get? id = some s ∧ s.pass = pass := by
  unfold define
  split
  · split <;> rename_i s h hp
    · simp [h, hp]
    · simp only [h, Option.some.injEq, exists_eq_left', hp, iff_false]
      split <;> simp
  · rename_i h
    simp only [h, reduceCtorEq, false_and, exists_false, iff_false]
    split <;> simp

/-- A definition that is not refused gives the symbol its address. -/
theorem address_define (t : SymbolTable) (id : SymbolId) (name : String) (a : Address) (pass : Nat)
    (h : (t.define id name a pass).1 ≠ .duplicate) : (t.define id name a pass).2.address id = a := by
  unfold define at h ⊢
  split
  · split
    · simp_all
    · simp [address, get?]
  · simp [address, get?]

/-- Defining a symbol leaves all others. -/
theorem get?_define_of_ne (t : SymbolTable) {id other : SymbolId} (name : String) (a : Address) (pass : Nat)
    (h : id ≠ other) : (t.define id name a pass).2.get? other = t.get? other := by
  unfold define
  split
  · split
    · rfl
    · simp [get?, Std.ExtTreeMap.getElem?_insert, h]
  · simp [get?, Std.ExtTreeMap.getElem?_insert, h]

@[simp] theorem get?_erase_self (t : SymbolTable) (id : SymbolId) : (t.erase id).get? id = none := by
  simp [get?, erase]

theorem get?_erase_of_ne (t : SymbolTable) {id other : SymbolId} (h : id ≠ other) :
    (t.erase id).get? other = t.get? other := by
  simp [get?, erase, Std.ExtTreeMap.getElem?_erase, h]

end SymbolTable

end Asm65
