import Asm65.Object.Basic

/-!
# The places of a module's uses

A use takes two bytes if a whole word goes there and one byte otherwise. In a module whose uses are sited, these
places lie in its own segments and do not overlap.
-/

namespace Asm65
set_option autoImplicit false

namespace Address

/-- How many bytes stand for the address. -/
def footprint (a : Address) : Nat := if a.relative = false ∧ a.part = .word then 2 else 1

theorem footprint_pos (a : Address) : 0 < a.footprint := by
  unfold footprint
  split <;> decide

/-- The bytes that stand for the address before linking, low byte first. -/
def image (a : Address) : Array UInt8 :=
  let v := a.part.apply a.value
  if a.footprint = 2 then #[v.toUInt8, (v >>> 8).toUInt8] else #[v.toUInt8]

theorem size_image (a : Address) : a.image.size = a.footprint := by
  unfold image footprint
  split <;> rfl

/-- Of a low byte nothing but the byte is kept anyway. -/
theorem toUInt8_low (v : UInt16) : (Part.low.apply v).toUInt8 = v.toUInt8 := by
  apply UInt8.toNat_inj.1
  have masked : (v &&& 0xff).toNat = v.toNat % 256 := by
    rw [UInt16.toNat_and]
    exact Nat.and_two_pow_sub_one_eq_mod v.toNat 8
  rw [Part.apply, UInt16.toNat_toUInt8, UInt16.toNat_toUInt8, masked]
  omega

end Address

namespace Object

/-- Every use has its place within the module. -/
def Contained (o : Object) : Prop :=
  ∀ {site value : Address}, o.uses[site]? = some value →
    ∃ space, site.space? = some space ∧ site.value.toNat + value.footprint ≤ (o.segment space).size

/-- No two places overlap. -/
def Apart (o : Object) : Prop :=
  ∀ {site value site' value' : Address}, o.uses[site]? = some value → o.uses[site']? = some value' → site ≠ site' →
    site.space? = site'.space? →
    site.value.toNat + value.footprint ≤ site'.value.toNat ∨ site'.value.toNat + value'.footprint ≤ site.value.toNat

/-- Every use has its place within the module, no two places overlap, and external values refer to external
symbols. -/
structure Sited (o : Object) : Prop where
  inside {site value : Address} (h : o.uses[site]? = some value) :
    ∃ space, site.space? = some space ∧ site.value.toNat + value.footprint ≤ (o.segment space).size
  apart {site value site' value' : Address} (h : o.uses[site]? = some value) (h' : o.uses[site']? = some value')
    (different : site ≠ site') (same : site.space? = site'.space?) :
    site.value.toNat + value.footprint ≤ site'.value.toNat ∨ site'.value.toNat + value'.footprint ≤ site.value.toNat
  externals {site value : Address} {id : SymbolId} (h : o.uses[site]? = some value) (origin : value.origin = .external id) :
    ∃ s, o.symbols[id]? = some s ∧ s.address.isExternal = true

/-- The conditions use by use. -/
theorem sited_iff (o : Object) : o.Sited ↔
    (∀ u ∈ o.uses.toList, (u.1.space?.any fun space => u.1.value.toNat + u.2.footprint ≤ (o.segment space).size) = true)
      ∧ (∀ u ∈ o.uses.toList, ∀ u' ∈ o.uses.toList, u.1 ≠ u'.1 → u.1.space? = u'.1.space? →
          u.1.value.toNat + u.2.footprint ≤ u'.1.value.toNat ∨ u'.1.value.toNat + u'.2.footprint ≤ u.1.value.toNat)
      ∧ (∀ u ∈ o.uses.toList, (match u.2.origin with
          | .external id => o.symbols[id]?.any (·.address.isExternal)
          | _ => true) = true) := by
  simp only [Prod.forall, Std.ExtTreeMap.mem_toList_iff_getElem?_eq_some]
  constructor
  · intro sited
    refine ⟨fun site value h => ?_, fun site value h site' value' h' => sited.apart h h', fun site value h => ?_⟩
    · obtain ⟨space, located, inside⟩ := sited.inside h
      rw [located]
      exact decide_eq_true inside
    · split
      · rename_i id origin
        obtain ⟨s, found, external⟩ := sited.externals h origin
        rw [found]
        exact external
      · rfl
  · rintro ⟨inside, apart, externals⟩
    refine ⟨fun {site value} h => ?_, fun {site value site' value'} h h' => apart site value h site' value' h',
      fun {site value id} h origin => ?_⟩
    · have within := inside site value h
      cases located : site.space? with
      | none => rw [located] at within; cases within
      | some space =>
        rw [located] at within
        exact ⟨space, rfl, of_decide_eq_true within⟩
    · have found := externals site value h
      rw [origin] at found
      exact (Option.any_eq_true _ _).1 found

instance (o : Object) : Decidable o.Sited := decidable_of_iff _ (sited_iff o).symm

end Object

end Asm65
