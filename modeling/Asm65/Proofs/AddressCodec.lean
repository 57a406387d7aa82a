import Asm65.Proofs.ObjectCodec

/-!
# Addresses and their bytes

The bytes of an address can be told from whatever follows them: the flag of relative addresses is no tag, the tag says
whether a symbol number comes behind the value, and whether a part does. Reading accepts nothing else, so an address
that has been read is written with the very bytes it was read from (`encoding_bijective`).
-/

namespace Asm65
set_option autoImplicit false

namespace Binary

/-- From `r` to `r'` the bytes `bs` have been read. -/
structure Reader.Consumes (r : Reader) (bs : List UInt8) (r' : Reader) : Prop where
  rest : r.rest = bs ++ r'.rest
  offset : r'.offset = r.offset + bs.length

namespace Reader.Consumes

variable {r r₁ r₂ : Reader} {bs cs : List UInt8}

theorem refl (r : Reader) : r.Consumes [] r := ⟨rfl, rfl⟩

theorem trans (h : r.Consumes bs r₁) (k : r₁.Consumes cs r₂) : r.Consumes (bs ++ cs) r₂ where
  rest := by rw [h.rest, k.rest, List.append_assoc]
  offset := by rw [k.offset, h.offset, List.length_append, Nat.add_assoc]

end Reader.Consumes

variable {r r' : Reader}

theorem consumes_of_readByte {b : UInt8} (h : readByte r = .ok b r') : r.Consumes [b] r' := by
  obtain ⟨_ | ⟨first, rest⟩, offset⟩ := r
  · cases h
  · cases h
    exact ⟨rfl, rfl⟩

/-- A word is written with the two bytes that make it up. -/
theorem word_of_bytes (low high : UInt8) : word (low.toUInt16 ||| high.toUInt16 <<< 8) = [low, high] := by
  have joined : 256 * high.toNat + low.toNat = 256 * high.toNat ||| low.toNat :=
    Nat.two_pow_add_eq_or_of_lt (i := 8) low.toNat_lt _
  have bound : high.toNat < 256 := high.toNat_lt
  have low_lt : low.toNat < 256 := low.toNat_lt
  have value : (low.toUInt16 ||| high.toUInt16 <<< 8).toNat = 256 * high.toNat + low.toNat := by
    simp only [UInt16.toNat_or, UInt8.toNat_toUInt16, UInt16.toNat_shiftLeft]
    simp only [UInt16.reduceToNat, Nat.reduceMod, Nat.shiftLeft_eq, Nat.reducePow]
    rw [Nat.or_comm, Nat.mul_comm, Nat.mod_eq_of_lt (by omega), ← joined]
  have first : (low.toUInt16 ||| high.toUInt16 <<< 8).toUInt8 = low := by
    apply UInt8.toNat_inj.1
    rw [UInt16.toNat_toUInt8, value]
    omega
  have second : ((low.toUInt16 ||| high.toUInt16 <<< 8) >>> 8).toUInt8 = high := by
    apply UInt8.toNat_inj.1
    rw [UInt16.toNat_toUInt8, UInt16.toNat_shiftRight, value]
    simp only [UInt16.reduceToNat, Nat.reduceMod, Nat.shiftRight_eq_div_pow, Nat.reducePow]
    omega
  rw [word, first, second]

theorem consumes_of_readWord {v : UInt16} (h : readWord r = .ok v r') : r.Consumes (word v) r' := by
  obtain ⟨_ | ⟨low, _ | ⟨high, rest⟩⟩, offset⟩ := r
  · cases h
  · cases h
  · cases h
    rw [word_of_bytes]
    exact ⟨rfl, rfl⟩

end Binary

open Binary

namespace Address

variable {r r' : Reader}

/-- A tag that stands for no origin is refused. -/
theorem decodeOrigin_of_ne_tag {tag : UInt8} (unknown : ∀ o : Origin, o.tag ≠ tag) :
    decodeOrigin tag = throw (.badOriginTag (Int.bmod tag.toNat 256)) := by
  have differs (o : Origin) : tag.toNat ≠ o.tag.toNat := fun same => unknown o (UInt8.toNat_inj.1 same.symm)
  unfold decodeOrigin
  split
  · exact absurd ‹_› (differs .absolute)
  · exact absurd ‹_› (differs (.space .code))
  · exact absurd ‹_› (differs (.space .data))
  · exact absurd ‹_› (differs (.space .zeroPage))
  · exact absurd ‹_› (differs (.external 0))
  · exact absurd ‹_› (differs .undefined)
  · rfl

/-- An origin is read behind its own tag, from its own symbol number. -/
theorem consumes_of_decodeOrigin {tag : UInt8} {o : Origin} (h : decodeOrigin tag r = .ok o r') :
    o.tag = tag ∧ r.Consumes o.number r' := by
  by_cases known : ∃ p : Origin, p.tag = tag
  · obtain ⟨p, rfl⟩ := known
    cases p with
    | external id =>
      obtain ⟨number, r₁, word, rest⟩ := exists_of_bind_eq_ok h
      cases rest
      exact ⟨rfl, consumes_of_readWord word⟩
    | absolute | undefined =>
      cases h
      exact ⟨rfl, .refl r⟩
    | space s =>
      cases s <;> cases h <;> exact ⟨rfl, .refl r⟩
  · rw [decodeOrigin_of_ne_tag (not_exists.1 known)] at h
    cases h

theorem consumes_of_decodePart {part : Part} (h : decodePart r = .ok part r') :
    r.Consumes [UInt8.ofNat part.rank] r' := by
  obtain ⟨b, r₁, byte, h⟩ := exists_of_bind_eq_ok h
  suffices same : UInt8.ofNat part.rank = b ∧ r' = r₁ by
    rw [same.1, same.2]
    exact consumes_of_readByte byte
  have number : UInt8.ofNat b.toNat = b := UInt8.ofNat_toNat
  generalize b.toNat = k at h number
  rcases k with _ | _ | _ | k <;> cases h <;> exact ⟨number, rfl⟩

/-- What is read after a tag is an address with this tag, and the bytes taken are the ones that it is written as. -/
theorem consumes_of_decodeAfterTag {relative : Bool} {tag : UInt8} {a : Address}
    (h : decodeAfterTag relative tag r = .ok a r') :
    a.Whole ∧ a.relative = relative ∧ a.origin.tag = tag ∧ r.Consumes a.afterTag r' := by
  obtain ⟨value, r₁, word, h⟩ := exists_of_bind_eq_ok h
  obtain ⟨origin, r₂, counted, h⟩ := exists_of_bind_eq_ok h
  obtain ⟨known, number⟩ := consumes_of_decodeOrigin counted
  have front := consumes_of_readWord word
  cases absolute : origin == .absolute with
  | true =>
    rw [absolute] at h
    cases h
    refine ⟨fun _ => rfl, rfl, known, front.trans ?_⟩
    rw [isConst, absolute, if_pos rfl, List.append_nil]
    exact number
  | false =>
    rw [absolute] at h
    obtain ⟨part, r₃, last, h⟩ := exists_of_bind_eq_ok h
    cases h
    refine ⟨fun constant => ?_, rfl, known, front.trans (number.trans ?_)⟩
    · rw [isConst, absolute] at constant
      cases constant
    · rw [isConst, absolute, if_neg Bool.false_ne_true]
      exact consumes_of_decodePart last

/-- What is read as an address are the bytes that it is written with. -/
theorem consumes_of_decode {a : Address} (h : decode r = .ok a r') : a.Whole ∧ r.Consumes a.encode r' := by
  obtain ⟨first, r₁, byte, h⟩ := exists_of_bind_eq_ok h
  have front := consumes_of_readByte byte
  rw [encode_eq]
  cases flagged : first == relativeFlag with
  | true =>
    have h : (readByte >>= decodeAfterTag true) r₁ = .ok a r' := by
      rw [flagged] at h
      exact h
    obtain ⟨tag, r₂, tagged, h⟩ := exists_of_bind_eq_ok h
    obtain ⟨whole, relative, rfl, behind⟩ := consumes_of_decodeAfterTag h
    rw [beq_iff_eq.1 flagged] at front
    rw [relative]
    exact ⟨whole, front.trans ((consumes_of_readByte tagged).trans behind)⟩
  | false =>
    have h : decodeAfterTag false first r₁ = .ok a r' := by
      rw [flagged] at h
      exact h
    obtain ⟨whole, relative, rfl, behind⟩ := consumes_of_decodeAfterTag h
    rw [relative]
    exact ⟨whole, front.trans behind⟩

/-- Addresses and their bytes determine each other. An address is read back from its bytes whatever follows them, and
what has been read is written with the bytes it was read from. So no address is written with the first bytes of another. -/
theorem encoding_bijective :
    (∀ a : Address, a.Whole → ∀ suffix n, decode ⟨a.encode ++ suffix, n⟩ = .ok a ⟨suffix, n + a.encode.length⟩)
      ∧ (∀ bytes n a r, decode ⟨bytes, n⟩ = .ok a r →
        a.Whole ∧ bytes = a.encode ++ r.rest ∧ r.offset = n + a.encode.length)
      ∧ ∀ a b : Address, a.Whole → b.Whole → a.encode <+: b.encode → a = b := by
  refine ⟨fun a whole => reads_decode whole, fun bytes n a r h => ?_, fun a b wholeA wholeB => ?_⟩
  · obtain ⟨whole, consumes⟩ := consumes_of_decode h
    exact ⟨whole, consumes.rest, consumes.offset⟩
  · rintro ⟨suffix, same⟩
    have short := reads_decode wholeA suffix 0
    have long := reads_decode wholeB [] 0
    rw [List.append_nil, ← same, short] at long
    injection long

/-- A relative address with a symbol number and a part, read back from in front of a byte that could be another flag. -/
theorem encoding_bijective_external :
    decode ⟨[0x80, 4, 2, 0, 7, 0, 1] ++ [0x80], 3⟩ = .ok ⟨.external 7, 2, .low, true⟩ ⟨[0x80], 10⟩ :=
  encoding_bijective.1 ⟨.external 7, 2, .low, true⟩ (fun constant => by cases constant) [0x80] 3

-- a constant is written without its part, so one that is not whole would come back as another
example : (⟨.absolute, 5, .high, false⟩ : Address).encode = (Address.constant 5).encode := rfl

end Address

end Asm65
