/-!
# Address spaces

A module is laid out in three relocatable spaces. `PerSpace` holds one value for each, which is how
segments, load addresses and module offsets are kept.
-/

namespace Asm65
set_option autoImplicit false

/-- The relocatable address spaces, in the order of object files. -/
inductive Space where
  | code
  | data
  | zeroPage
  deriving DecidableEq, Inhabited

namespace Space

/-- Every space, in the order of object files. -/
def all : List Space := [.code, .data, .zeroPage]

theorem mem_all (s : Space) : s ∈ all := by cases s <;> decide

/-- The name used in messages and maps. -/
def name : Space → String
  | .code => "CODE"
  | .data => "DATA"
  | .zeroPage => "ZPAGE"

/-- The letter used in listings and in the text of addresses. -/
def letter : Space → Char
  | .code => 'C'
  | .data => 'D'
  | .zeroPage => 'Z'

end Space

/-- One value for each space. -/
structure PerSpace (α : Type) where
  code : α
  data : α
  zeroPage : α
  deriving DecidableEq, Inhabited

namespace PerSpace
variable {α β : Type}

/-- The same value for every space. -/
def const (a : α) : PerSpace α := ⟨a, a, a⟩

def get (p : PerSpace α) : Space → α
  | .code => p.code
  | .data => p.data
  | .zeroPage => p.zeroPage

/-- Applies `f` to the value of one space. -/
def modify (p : PerSpace α) (s : Space) (f : α → α) : PerSpace α :=
  match s, p with
  | .code, ⟨c, d, z⟩ => ⟨f c, d, z⟩
  | .data, ⟨c, d, z⟩ => ⟨c, f d, z⟩
  | .zeroPage, ⟨c, d, z⟩ => ⟨c, d, f z⟩

def map (f : α → β) (p : PerSpace α) : PerSpace β :=
  ⟨f p.code, f p.data, f p.zeroPage⟩

/-- The values of two records joined space by space. -/
def zipWith {γ : Type} (f : α → β → γ) (p : PerSpace α) (q : PerSpace β) : PerSpace γ :=
  ⟨f p.code q.code, f p.data q.data, f p.zeroPage q.zeroPage⟩

/-- The values in the order of object files. -/
def toList (p : PerSpace α) : List α := [p.code, p.data, p.zeroPage]

@[simp] theorem get_modify_self (p : PerSpace α) (s : Space) (f : α → α) :
    (p.modify s f).get s = f (p.get s) := by
  cases s <;> rfl

theorem get_modify_of_ne (p : PerSpace α) {s t : Space} (f : α → α) (h : s ≠ t) :
    (p.modify s f).get t = p.get t := by
  cases s <;> cases t <;> first | rfl | exact absurd rfl h

@[simp] theorem get_const (a : α) (s : Space) : (const a).get s = a := by
  cases s <;> rfl

@[simp] theorem get_zipWith {γ : Type} (f : α → β → γ) (p : PerSpace α) (q : PerSpace β) (s : Space) :
    (p.zipWith f q).get s = f (p.get s) (q.get s) := by
  cases s <;> rfl

@[simp] theorem get_map (f : α → β) (p : PerSpace α) (s : Space) : (p.map f).get s = f (p.get s) := by
  cases s <;> rfl

end PerSpace

end Asm65
