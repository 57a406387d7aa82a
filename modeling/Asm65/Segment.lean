import Asm65.Address.Basic

/-!
# Segments

The bytes of one address space, appended to as code and data are laid out. The length is the address of
the next byte, modulo sixteen bits.
-/

namespace Asm65
set_option autoImplicit false

structure Segment where
  bytes : Array UInt8 := #[]
  deriving DecidableEq, Inhabited

namespace Segment

def empty : Segment := {}

def size (s : Segment) : Nat := s.bytes.size

def isEmpty (s : Segment) : Bool := s.bytes.isEmpty

def push (s : Segment) (b : UInt8) : Segment := ⟨s.bytes.push b⟩

def append (s : Segment) (bs : Array UInt8) : Segment := ⟨s.bytes ++ bs⟩

/-- With the byte at `offset` overwritten, if there is one. -/
def patch? (s : Segment) (offset : Nat) (b : UInt8) : Option Segment :=
  if offset < s.bytes.size then some ⟨s.bytes.setIfInBounds offset b⟩ else none

/-- With consecutive bytes overwritten from `offset` on; bytes beyond the end are dropped. -/
def overwrite (s : Segment) (offset : Nat) : List UInt8 → Segment
  | [] => s
  | b :: rest => overwrite ⟨s.bytes.setIfInBounds offset b⟩ (offset + 1) rest

/-- The address of the next byte appended to the segment of a space. -/
def tail (s : Segment) (space : Space) : Address := .inSpace space (UInt16.ofNat s.size)

@[simp] theorem size_empty : empty.size = 0 := rfl

@[simp] theorem bytes_push (s : Segment) (b : UInt8) : (s.push b).bytes = s.bytes.push b := rfl

@[simp] theorem size_push (s : Segment) (b : UInt8) : (s.push b).size = s.size + 1 := by
  simp [size]

@[simp] theorem bytes_append (s : Segment) (bs : Array UInt8) : (s.append bs).bytes = s.bytes ++ bs := rfl

@[simp] theorem size_append (s : Segment) (bs : Array UInt8) : (s.append bs).size = s.size + bs.size := by
  simp [size]

@[simp] theorem size_overwrite (s : Segment) (offset : Nat) (bs : List UInt8) :
    (s.overwrite offset bs).size = s.size := by
  induction bs generalizing s offset with
  | nil => rfl
  | cons b rest ih =>
    rw [overwrite, ih]
    simp [size]

end Segment

end Asm65
