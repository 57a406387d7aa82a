import Asm65.Error

/-!
# Little-endian byte formats

Writing gives lists of bytes; reading consumes a list and keeps count of the offset for messages. A
read that fails for lack of bytes consumes none.
-/

namespace Asm65.Binary
set_option autoImplicit false

/-- A word, low byte first. -/
def word (v : UInt16) : List UInt8 := [v.toUInt8, (v >>> 8).toUInt8]

/-- A string: the number of its UTF-8 bytes as a word, then the bytes. -/
def string (s : String) : List UInt8 :=
  word (UInt16.ofNat s.utf8ByteSize) ++ s.toUTF8.data.toList

/-- The number of elements of a collection, which must fit a word. -/
def count (what : String) (n : Nat) : Except Cause (List UInt8) :=
  if n < 0x10000 then .ok (word (UInt16.ofNat n)) else .error (.tooMany what n)

/-- The bytes not yet read, and how many were. -/
structure Reader where
  rest : List UInt8
  offset : Nat := 0

namespace Reader

def isEmpty (r : Reader) : Bool := r.rest.isEmpty

end Reader

/-- A reading step: it may fail, and says what is left either way. -/
abbrev Read := EStateM Cause Reader

/-- The next `n` bytes. -/
def take (n : Nat) : Read (List UInt8) := fun r =>
  let got := r.rest.take n
  if got.length = n then .ok got ⟨r.rest.drop n, r.offset + n⟩
  else .error (.unexpectedEnd r.offset) r

def readByte : Read UInt8 := fun r =>
  match r.rest with
  | b :: rest => .ok b ⟨rest, r.offset + 1⟩
  | [] => .error (.unexpectedEnd r.offset) r

def readWord : Read UInt16 := fun r =>
  match r.rest with
  | lo :: hi :: rest => .ok (lo.toUInt16 ||| (hi.toUInt16 <<< 8)) ⟨rest, r.offset + 2⟩
  | _ => .error (.unexpectedEnd r.offset) r

def readString : Read String := do
  let n ← readWord
  let bytes ← take n.toNat
  match String.fromUTF8? ⟨bytes.toArray⟩ with
  | some s => return s
  | none => throw .badName

/-- `n` elements, one after another. -/
def repeated {α : Type} (read : Read α) : Nat → Array α → Read (Array α)
  | 0, acc => return acc
  | n + 1, acc => do repeated read n (acc.push (← read))

theorem take_append (bs rest : List UInt8) (n : Nat) :
    take bs.length ⟨bs ++ rest, n⟩ = .ok bs ⟨rest, n + bs.length⟩ := by
  simp [take]

/-- The two bytes of a word make up the word. -/
theorem word_bytes (v : UInt16) : v.toUInt8.toUInt16 ||| (v >>> 8).toUInt8.toUInt16 <<< 8 = v := by
  apply UInt16.toNat_inj.1
  have hv : v.toNat < 0x10000 := v.toNat_lt
  have high : v.toNat / 256 < 256 := by omega
  have joined : 256 * (v.toNat / 256) + v.toNat % 256 = 256 * (v.toNat / 256) ||| v.toNat % 256 :=
    Nat.two_pow_add_eq_or_of_lt (i := 8) (by omega) _
  simp only [UInt16.toNat_or, UInt8.toNat_toUInt16, UInt16.toNat_toUInt8, UInt16.toNat_shiftLeft,
    UInt16.toNat_shiftRight]
  simp only [UInt16.reduceToNat, Nat.reduceMod, Nat.shiftLeft_eq, Nat.shiftRight_eq_div_pow, Nat.reducePow,
    Nat.mod_eq_of_lt high]
  rw [Nat.or_comm, Nat.mul_comm, Nat.mod_eq_of_lt (by omega), ← joined]
  omega

theorem readWord_word (v : UInt16) (rest : List UInt8) (n : Nat) :
    readWord ⟨word v ++ rest, n⟩ = .ok v ⟨rest, n + 2⟩ := by
  simp only [readWord, word, List.cons_append, List.nil_append, word_bytes]

/-- Reads all of `bytes`; bytes left over are an error. -/
def readAll {α : Type} (read : Read α) (leftOver : Cause) (bytes : List UInt8) : Except Cause α :=
  match read ⟨bytes, 0⟩ with
  | .ok a r => if r.isEmpty then .ok a else .error leftOver
  | .error e _ => .error e

end Asm65.Binary
