import Asm65.Proofs.Trace

/-!
# The uses that a pass records

A use is recorded at the end of its segment just before its bytes are written there. So its place lies in the
segment, the bytes there stay, and what is recorded later has its place further on. Offsets are addresses as long
as the segments do not outgrow sixteen bits.
-/

namespace Asm65.Assembler
set_option autoImplicit false

variable {s t : Assembler} {ids : List SymbolId}

/-- Every byte of a segment has an address of its own. -/
def Fits (s : Assembler) : Prop := ∀ space, (s.segment space).size ≤ 65536

theorem Fits.toNat_ofNat (fits : s.Fits) (space : Space) {offset : Nat} (inside : offset < (s.segment space).size) :
    (UInt16.ofNat offset).toNat = offset :=
  UInt16.toNat_ofNat_of_lt' (Nat.lt_of_lt_of_le inside (fits space))

theorem Fits.of_grows (fits : t.Fits) (grows : Grows s t) : s.Fits :=
  fun space => Nat.le_trans (grows.size_le space) (fits space)

theorem HasBytes.le_size {space : Space} {offset : Nat} {bs : Array UInt8} (h : s.HasBytes space offset bs) :
    offset + bs.size ≤ (s.segment space).size := by
  obtain ⟨before, after, same, rfl⟩ := h
  rw [Segment.size, same, Array.size_append, Array.size_append]
  exact Nat.le_add_right _ _

theorem HasBytes.left {space : Space} {offset : Nat} {bs more : Array UInt8}
    (h : s.HasBytes space offset (bs ++ more)) : s.HasBytes space offset bs := by
  obtain ⟨before, after, same, size⟩ := h
  exact ⟨before, more ++ after, by rw [same]; simp only [Array.append_assoc], size⟩

/-- A use at an offset of a space: a value of the source that only linking decides, over its own bytes. -/
structure InPlace (s : Assembler) (site value : Address) (space : Space) (offset : Nat) : Prop where
  site : site = .inSpace space (.ofNat offset)
  bytes : s.HasBytes space offset value.image
  drawn : s.Drawn value
  number : value.isConst = false
  unknown : value.isUndefined = false

namespace InPlace

variable {site value : Address} {space : Space} {offset : Nat}

theorem mono (h : s.InPlace site value space offset) (grows : Grows s t) : t.InPlace site value space offset :=
  ⟨h.site, h.bytes.mono grows, h.drawn.mono grows, h.number, h.unknown⟩

theorem le_size (h : s.InPlace site value space offset) : offset + value.footprint ≤ (s.segment space).size :=
  value.size_image ▸ h.bytes.le_size

theorem space?_site (h : s.InPlace site value space offset) : site.space? = some space := by
  rw [h.site]
  rfl

theorem toNat_site (h : s.InPlace site value space offset) (fits : s.Fits) : site.value.toNat = offset := by
  have inside := h.le_size
  have some := value.footprint_pos
  rw [h.site]
  exact fits.toNat_ofNat space (by omega)

end InPlace

/-- The uses so far are in place and apart. -/
structure Tabled (s : Assembler) : Prop where
  inPlace {site value : Address} (h : s.uses[site]? = some value) : ∃ space offset, s.InPlace site value space offset
  apart {site value site' value' : Address} (h : s.uses[site]? = some value) (h' : s.uses[site']? = some value')
    (different : site ≠ site') (same : site.space? = site'.space?) :
    site.value.toNat + value.footprint ≤ site'.value.toNat ∨ site'.value.toNat + value'.footprint ≤ site.value.toNat

namespace Tabled

/-- What records no use. -/
theorem keep (tabled : s.Tabled) (grows : Grows s t) (uses : t.uses = s.uses) : t.Tabled := by
  refine ⟨fun {site value} h => ?_, fun h h' => ?_⟩
  · obtain ⟨space, offset, inPlace⟩ := tabled.inPlace (uses ▸ h)
    exact ⟨space, offset, inPlace.mono grows⟩
  · exact tabled.apart (uses ▸ h) (uses ▸ h')

/-- A use at the end of the segment has its place after all others. -/
theorem insert (tabled : s.Tabled) (grows : Grows s t) (fits : t.Fits) {v : Address}
    (uses : t.uses = s.uses.insert s.here v)
    (new : t.InPlace s.here v s.current (s.segment s.current).size) : t.Tabled := by
  have find {site value : Address} (h : t.uses[site]? = some value) :
      site = s.here ∧ value = v ∨ site ≠ s.here ∧ s.uses[site]? = some value := by
    rw [uses] at h
    by_cases here : s.here = site
    · subst here
      rw [Std.ExtTreeMap.getElem?_insert_self, Option.some.injEq] at h
      exact .inl ⟨rfl, h.symm⟩
    · rw [Std.ExtTreeMap.getElem?_insert, if_neg (by simpa using here)] at h
      exact .inr ⟨fun same => here same.symm, h⟩
  have before {site value : Address} (h : s.uses[site]? = some value) (same : site.space? = s.here.space?) :
      site.value.toNat + value.footprint ≤ s.here.value.toNat := by
    obtain ⟨space, offset, inPlace⟩ := tabled.inPlace h
    have inside := inPlace.le_size
    rw [inPlace.space?_site, new.space?_site, Option.some.injEq] at same
    rw [inPlace.toNat_site (fits.of_grows grows), new.toNat_site fits]
    rwa [same] at inside
  refine ⟨fun {site value} h => ?_, fun {site value site' value'} h h' different same => ?_⟩
  · obtain ⟨rfl, rfl⟩ | ⟨-, old⟩ := find h
    · exact ⟨_, _, new⟩
    · obtain ⟨space, offset, inPlace⟩ := tabled.inPlace old
      exact ⟨space, offset, inPlace.mono grows⟩
  · obtain ⟨rfl, rfl⟩ | ⟨-, old⟩ := find h <;> obtain ⟨rfl, rfl⟩ | ⟨-, old'⟩ := find h'
    · exact absurd rfl different
    · exact .inr (before old' same.symm)
    · exact .inl (before old same)
    · exact tabled.apart old old' different same

/-- Writing an operand. -/
theorem operand (tabled : s.Tabled) {a : Address} {use : Option Address} {d : Diagnostics} {bs : Array UInt8}
    (aims : s.Aims ids a) (writes : s.Writes a use d bs) (fits : (s.wrote a use d bs).Fits) :
    (s.wrote a use d bs).Tabled := by
  have grows : Grows s (s.wrote a use d bs) := (Action.operand bs aims writes).grows
  cases use with
  | none => exact tabled.keep grows rfl
  | some v =>
    obtain ⟨⟨part, rfl⟩, number, unknown, more, rfl⟩ := writes.used rfl
    refine tabled.insert grows fits rfl ⟨rfl, ?_, ⟨aims.drawn.direct, (aims.drawn.mono grows).asked⟩, number, unknown⟩
    exact (hasBytes_modify s _).left

theorem act (tabled : s.Tabled) (h : Action ids s t) (fits : t.Fits) : t.Tabled := by
  have grows := h.grows
  cases h with
  | load h => exact tabled.keep grows (by rw [load_eq h])
  | lookUp pos known => exact tabled.keep grows (by rw [lookUp_eq])
  | operand bs aims writes => exact tabled.operand aims writes fits
  | read | intern | report | place | equate | declareExternal | clash | declarePublic | switch | bytes | mark | branch
  | refuse => exact tabled.keep grows rfl

theorem step (tabled : s.Tabled) (h : Step s t) (fits : t.Fits) : t.Tabled := by
  have grows := h.grows
  cases h with
  | act h => exact tabled.act h fits
  | allot | settle | clash | drop | blocks | begin | list | stop => exact tabled.keep grows rfl

theorem steps (tabled : s.Tabled) (h : Steps s t) (fits : t.Fits) : t.Tabled := by
  induction h with
  | refl => exact tabled
  | tail _ h ih => exact (ih (fits.of_grows h.grows)).step h fits

/-- The uses of the module so far lie within it. -/
theorem contained (tabled : s.Tabled) (fits : s.Fits) : s.toObject.Contained := by
  intro site value used
  obtain ⟨space, offset, inPlace⟩ := tabled.inPlace used
  refine ⟨space, inPlace.space?_site, ?_⟩
  rw [inPlace.toNat_site fits]
  exact inPlace.le_size

end Tabled

theorem tabled_of_uses_eq (none : s.uses = ∅) : s.Tabled := by
  refine ⟨fun h => ?_, fun h => ?_⟩ <;> simp [none] at h

theorem LastPass.tabled {b : Assembler} (last : LastPass b t) (fits : t.Fits) : t.Tabled :=
  (tabled_of_uses_eq last.uses).steps last.reaches.steps fits

end Asm65.Assembler
