import Asm65.Space
import Asm65.Text.Numeral

/-!
# Addresses

An address is the value that the assembler and the linker compute with: a sixteen-bit number together
with the origin that it counts from, the byte of the final value it stands for, and whether the final
value is wanted as a distance. The order of addresses is that of relocation tables: by origin, then
value, part and mode.
-/

namespace Asm65
set_option autoImplicit false

/-- The number of a symbol within its module. -/
abbrev SymbolId := UInt16

/-- What the value of an address counts from. -/
inductive Origin where
  /-- A plain number. -/
  | absolute
  /-- The start of one of the module's own spaces. -/
  | space (s : Space)
  /-- The symbol with this number, defined in another module. -/
  | external (id : SymbolId)
  /-- Not known yet. -/
  | undefined
  deriving Inhabited

/-- Which byte or bytes of a final sixteen-bit value an address stands for. -/
inductive Part where
  | word
  | low
  | high
  deriving DecidableEq, Inhabited

namespace Part

/-- This part of a final value. -/
def apply (part : Part) (value : UInt16) : UInt16 :=
  match part with
  | .word => value
  | .low => value &&& 0xff
  | .high => value >>> 8

/-- The number of the part in the order of addresses and in object files. -/
def rank : Part → Nat
  | .word => 0
  | .low => 1
  | .high => 2

/-- The operator that selects this part. -/
def mark : Part → String
  | .word => ""
  | .low => "<"
  | .high => ">"

end Part

structure Address where
  origin : Origin
  value : UInt16
  part : Part
  relative : Bool
  deriving Inhabited

namespace Origin

/-- Plain numbers first, then the spaces in order, then external symbols by number, then the unknown. -/
def rank : Origin → Nat
  | .absolute => 0
  | .space .code => 1
  | .space .data => 2
  | .space .zeroPage => 3
  | .external id => 4 + id.toNat
  | .undefined => 4 + 0x10000

theorem rank_injective {a b : Origin} (h : a.rank = b.rank) : a = b := by
  have word (x : UInt16) : x.toNat < 0x10000 := x.toNat_lt
  rcases a with _ | (_ | _ | _) | x | _ <;> rcases b with _ | (_ | _ | _) | y | _ <;>
    simp only [rank] at h <;> first | rfl | omega | skip
  · congr 1; apply UInt16.toNat_inj.1; omega
  · have := word x; omega
  · have := word y; omega

instance : DecidableEq Origin := fun a b => decidable_of_iff (a.rank = b.rank) ⟨rank_injective, congrArg rank⟩

end Origin

namespace Address

/-- A single number whose order is the order of addresses. -/
def rank (a : Address) : Nat :=
  ((a.origin.rank * 0x10000 + a.value.toNat) * 3 + a.part.rank) * 2 + a.relative.toNat

/-- The order of addresses tells different addresses apart. -/
theorem rank_injective {a b : Address} (h : a.rank = b.rank) : a = b := by
  obtain ⟨o, v, p, r⟩ := a
  obtain ⟨o', v', p', r'⟩ := b
  have hv : v.toNat < 0x10000 := v.toNat_lt
  have hv' : v'.toNat < 0x10000 := v'.toNat_lt
  have hp : p.rank < 3 := by cases p <;> decide
  have hp' : p'.rank < 3 := by cases p' <;> decide
  have hr : r.toNat < 2 := by cases r <;> decide
  have hr' : r'.toNat < 2 := by cases r' <;> decide
  simp only [rank] at h
  have eo : o.rank = o'.rank := by omega
  have ev : v.toNat = v'.toNat := by omega
  have ep : p.rank = p'.rank := by omega
  have er : r.toNat = r'.toNat := by omega
  obtain rfl := Origin.rank_injective eo
  obtain rfl := UInt16.toNat_inj.1 ev
  have : p = p' := by cases p <;> cases p' <;> first | rfl | (simp [Part.rank] at ep)
  have : r = r' := by cases r <;> cases r' <;> first | rfl | (simp at er)
  simp_all

instance : DecidableEq Address := fun a b => decidable_of_iff (a.rank = b.rank) ⟨rank_injective, congrArg rank⟩

instance : Ord Address where
  compare := compareOn rank

instance : Std.TransOrd Address := inferInstanceAs (Std.TransCmp (compareOn rank))

/-- What compares equal by an injective function is equal. It is stated for any function, so that no rank is
computed to check it. -/
theorem eq_of_compareOn {α β : Type} [Ord β] [Std.LawfulEqOrd β] {f : α → β} (injective : ∀ {a b}, f a = f b → a = b)
    {a b : α} (h : compareOn f a b = .eq) : a = b :=
  injective (Std.LawfulEqOrd.eq_of_compare h)

instance : Std.LawfulEqOrd Address where
  eq_of_compare h := eq_of_compareOn rank_injective h

/-- A whole, non-relative address. -/
def of (origin : Origin) (value : UInt16) : Address := ⟨origin, value, .word, false⟩

def constant (value : UInt16) : Address := of .absolute value

def undefined : Address := of .undefined 0

def external (id : SymbolId) : Address := of (.external id) 0

def inSpace (s : Space) (value : UInt16) : Address := of (.space s) value

def isConst (a : Address) : Bool := a.origin == .absolute

def isUndefined (a : Address) : Bool := a.origin == .undefined

def isExternal (a : Address) : Bool :=
  match a.origin with
  | .external _ => true
  | _ => false

/-- The space that the address lies in. -/
def space? (a : Address) : Option Space :=
  match a.origin with
  | .space s => some s
  | _ => none

def isRelocatable (a : Address) : Bool := a.space?.isSome

/-- Whether the value fits in a byte, read as signed or as unsigned. -/
def fitsByte (a : Address) : Bool := a.value ≤ 0xff || a.value ≥ 0xff80

/-- The text of an address in messages and listings. -/
def text (a : Address) : String :=
  let rel := if a.relative then "rel " else ""
  match a.origin with
  | .absolute => a.part.mark ++ "$" ++ Numeral.hex 4 a.value.toNat
  | .space s => rel ++ a.part.mark ++ s.letter.toString ++ ":" ++ Numeral.hex 4 a.value.toNat
  | .external id => rel ++ a.part.mark ++ "ext#" ++ toString id.toNat ++ "+" ++ toString a.value.toNat
  | .undefined => a.part.mark ++ "<undefined>"

end Address

end Asm65
