import Asm65.Proofs.ObjectCodec

/-!
# What an object file cannot hold

Every length in an object file is a word. The sizes of the segments and the numbers of symbols and of uses are
checked before they are written, and writing fails exactly if one of them is no word. The length of a name is not
checked: the file of a module with a longer name is written with the length modulo 65536.
-/

namespace Asm65
set_option autoImplicit false

open Binary

namespace Binary

/-- A piece of a file: a length, or bytes. -/
inductive Piece where
  | length (n : Nat)
  | content (bytes : List UInt8)

namespace Piece

def written : Piece → List UInt8
  | .length n => word (.ofNat n)
  | .content bytes => bytes

/-- The word that stands for a length is the length. -/
def IsExact (n : Nat) : Prop := (UInt16.ofNat n).toNat = n

theorem isExact_iff {n : Nat} : IsExact n ↔ n ≤ 65535 := by
  rw [IsExact, UInt16.toNat_ofNat']
  omega

end Piece

theorem count_eq_ok {what : String} {n : Nat} (h : n ≤ 65535) : count what n = .ok (word (.ofNat n)) :=
  if_pos (by omega)

/-- A computation that fails only for a number that the format cannot hold. -/
def FailsByFormat {α : Type} (x : Except Cause α) : Prop := ∀ cause, x = .error cause → cause.category = .format

namespace FailsByFormat

variable {α β : Type}

theorem pure (a : α) : FailsByFormat (Pure.pure a) := by
  intro cause h
  cases h

theorem bind {x : Except Cause α} {f : α → Except Cause β} (first : FailsByFormat x)
    (second : ∀ a, FailsByFormat (f a)) : FailsByFormat (x >>= f) := by
  intro cause h
  cases run : x with
  | error e =>
    rw [run] at h
    cases h
    exact first _ run
  | ok a =>
    rw [run] at h
    exact second a cause h

theorem count (what : String) (n : Nat) : FailsByFormat (count what n) := by
  intro cause h
  unfold Binary.count at h
  split at h <;> cases h
  rfl

end FailsByFormat

end Binary

namespace Object

def segmentPieces (s : Segment) : List Piece := [.length s.size, .content s.bytes.toList]

def symbolPieces (s : Symbol) : List Piece :=
  [.content (word s.id), .length s.name.utf8ByteSize, .content s.name.toUTF8.data.toList, .content s.address.encode]

/-- The pieces of the file of a module, in their order. -/
def pieces (o : Object) : List Piece :=
  .content (word version)
    :: (segmentPieces o.segments.code ++ segmentPieces o.segments.data ++ segmentPieces o.segments.zeroPage
      ++ .length o.exported.length :: o.exported.flatMap symbolPieces
      ++ [.length o.uses.size, .content (o.uses.toList.flatMap encodeUse)])

/-- One of the numbers that are checked is no word. -/
def Oversized (o : Object) : Prop :=
  (∃ space, 65535 < (o.segment space).size) ∨ 65535 < o.exported.length ∨ 65535 < o.uses.size

variable {o : Object}

theorem written_symbolPieces (s : Symbol) : (symbolPieces s).flatMap Piece.written = encodeSymbol s := by
  simp [symbolPieces, Piece.written, encodeSymbol, string]

theorem encodeSegment_eq {s : Segment} (h : s.size ≤ 65535) :
    encodeSegment s = .ok ((segmentPieces s).flatMap Piece.written) := by
  rw [encodeSegment, count_eq_ok h]
  simp [segmentPieces, Piece.written, Segment.size, pure, Except.pure, bind, Except.bind]

theorem size_le_of_encodeSegment {s : Segment} {bytes : List UInt8} (h : encodeSegment s = .ok bytes) :
    s.size ≤ 65535 := by
  obtain ⟨number, counted, -⟩ := exists_of_bind h
  have := (of_count counted).1
  omega

/-- A module whose numbers are words is written piece by piece. -/
theorem encode_of_not_oversized (h : ¬o.Oversized) : o.encode = .ok (o.pieces.flatMap Piece.written) := by
  simp only [Oversized, not_or, not_exists, Nat.not_lt] at h
  obtain ⟨segments, symbols, uses⟩ := h
  have all : o.exported.flatMap encodeSymbol = (o.exported.flatMap symbolPieces).flatMap Piece.written := by
    rw [List.flatMap_assoc]
    simp only [written_symbolPieces]
  have code := encodeSegment_eq (s := o.segments.code) (segments .code)
  have data := encodeSegment_eq (s := o.segments.data) (segments .data)
  have zeroPage := encodeSegment_eq (s := o.segments.zeroPage) (segments .zeroPage)
  rw [encode, code, data, zeroPage, count_eq_ok symbols, count_eq_ok uses, all]
  simp [pieces, Piece.written, bind, Except.bind, pure, Except.pure]

theorem not_oversized_of_encode {bytes : List UInt8} (h : o.encode = .ok bytes) : ¬o.Oversized := by
  obtain ⟨code, data, zeroPage, hcode, hdata, hzeroPage, symbols, uses, -⟩ := exists_of_encode h
  have segments (space : Space) : (o.segment space).size ≤ 65535 := by
    cases space with
    | code => exact size_le_of_encodeSegment hcode
    | data => exact size_le_of_encodeSegment hdata
    | zeroPage => exact size_le_of_encodeSegment hzeroPage
  rintro (⟨space, large⟩ | large | large)
  · have := segments space
    omega
  · omega
  · omega

theorem failsByFormat_encode (o : Object) : FailsByFormat o.encode := by
  have segment (s : Segment) : FailsByFormat (encodeSegment s) := (FailsByFormat.count _ _).bind fun _ => .pure _
  exact (segment _).bind fun _ => (segment _).bind fun _ => (segment _).bind fun _ =>
    (FailsByFormat.count _ _).bind fun _ => (FailsByFormat.count _ _).bind fun _ => .pure _

/-- A length of the file is one of the numbers that are checked, or the length of a name. -/
theorem length_mem_pieces_iff {n : Nat} :
    Piece.length n ∈ o.pieces ↔ (∃ space, n = (o.segment space).size) ∨ n = o.exported.length ∨ n = o.uses.size
      ∨ ∃ s ∈ o.exported, n = s.name.utf8ByteSize := by
  have spaces : (∃ space, n = (o.segment space).size)
      ↔ n = o.segments.code.size ∨ n = o.segments.data.size ∨ n = o.segments.zeroPage.size := by
    constructor
    · rintro ⟨_ | _ | _, rfl⟩
      · exact .inl rfl
      · exact .inr (.inl rfl)
      · exact .inr (.inr rfl)
    · rintro (rfl | rfl | rfl)
      · exact ⟨.code, rfl⟩
      · exact ⟨.data, rfl⟩
      · exact ⟨.zeroPage, rfl⟩
  rw [spaces, or_assoc, or_assoc, or_comm (a := n = o.uses.size)]
  simp [pieces, segmentPieces, symbolPieces]

/-- The lengths of a file that is written are exact up to those of its names. -/
theorem isExact_iff_of_not_oversized (h : ¬o.Oversized) :
    (∀ n, Piece.length n ∈ o.pieces → Piece.IsExact n) ↔ ∀ s ∈ o.exported, s.name.utf8ByteSize ≤ 65535 := by
  simp only [Oversized, not_or, not_exists, Nat.not_lt] at h
  obtain ⟨segments, symbols, uses⟩ := h
  simp only [length_mem_pieces_iff, Piece.isExact_iff]
  constructor
  · intro exact s mem
    exact exact _ (.inr (.inr (.inr ⟨s, mem, rfl⟩)))
  · rintro names n (⟨space, rfl⟩ | rfl | rfl | ⟨s, mem, rfl⟩)
    · exact segments space
    · exact symbols
    · exact uses
    · exact names s mem

/-- A file is refused, by a format error, exactly if a segment has more bytes, or there are more exported symbols or
more uses, than a word counts. The file of any other module holds its pieces one after another, and the lengths in it
are the real ones exactly if a word counts the bytes of each exported name. -/
theorem encode_limits (o : Object) :
    ((∃ cause, o.encode = .error cause ∧ cause.category = .format) ↔ o.Oversized)
      ∧ (¬o.Oversized → o.encode = .ok (o.pieces.flatMap Piece.written)
        ∧ ((∀ n, Piece.length n ∈ o.pieces → Piece.IsExact n) ↔ ∀ s ∈ o.exported, s.name.utf8ByteSize ≤ 65535)) := by
  refine ⟨⟨?_, ?_⟩, fun h => ⟨encode_of_not_oversized h, isExact_iff_of_not_oversized h⟩⟩
  · rintro ⟨cause, failed, -⟩
    refine Classical.byContradiction fun h => ?_
    rw [encode_of_not_oversized h] at failed
    cases failed
  · intro h
    cases run : o.encode with
    | error cause => exact ⟨cause, rfl, failsByFormat_encode o cause run⟩
    | ok bytes => exact absurd h (not_oversized_of_encode run)

/-- A module that defines one public name. -/
def naming (name : String) : Object :=
  Object.addSymbol {} { id := 1, name, address := .constant 7, isPublic := true }

theorem utf8ByteSize_replicate (n : Nat) : (String.ofList (List.replicate n 'a')).utf8ByteSize = n := by
  induction n with
  | zero => rfl
  | succ n ih =>
    rw [List.replicate_succ', String.ofList_append, String.utf8ByteSize_append, ih]
    rfl

theorem exported_naming (name : String) :
    (naming name).exported = [{ id := 1, name, address := .constant 7, isPublic := true }] := rfl

theorem not_oversized_naming (name : String) : ¬(naming name).Oversized := by
  have none : ¬65535 < 0 := by decide
  have one : ¬65535 < 1 := by decide
  rintro (⟨space, large⟩ | large | large)
  · cases space <;> exact none large
  · rw [exported_naming] at large
    exact one large
  · exact none large

/-- A name of 65536 bytes is no reason to refuse the file, and the length before it is zero. -/
theorem encode_naming_long :
    ∃ name bytes, (∃ s ∈ (naming name).exported, s.name.utf8ByteSize = 65536) ∧ (naming name).encode = .ok bytes
      ∧ Piece.length 65536 ∈ (naming name).pieces ∧ (Piece.length 65536).written = [0, 0] := by
  have size := utf8ByteSize_replicate 65536
  generalize String.ofList (List.replicate 65536 'a') = name at size
  have exported : ∃ s ∈ (naming name).exported, s.name.utf8ByteSize = 65536 := by
    rw [exported_naming]
    exact ⟨_, List.mem_singleton.2 rfl, size⟩
  obtain ⟨s, mem, long⟩ := exported
  refine ⟨name, _, ⟨s, mem, long⟩, encode_of_not_oversized (not_oversized_naming name), ?_, by decide⟩
  exact length_mem_pieces_iff.2 (.inr (.inr (.inr ⟨s, mem, long.symm⟩)))

end Object

end Asm65
