import Asm65.Symbol.Basic

/-!
# Numbering names

Names get the numbers 1, 2, 3, ... as they are first seen. No two names share a number, a number once given
stays, and all numbers lie below those of the labels of blocks.
-/

namespace Asm65.IdentifierTable
set_option autoImplicit false

/-- The numbers given so far are 1 up to the number of names, each to one name. -/
structure Numbered (t : IdentifierTable) : Prop where
  range {name : String} {id : SymbolId} (h : t.ids[name]? = some id) : 1 ≤ id.toNat ∧ id.toNat ≤ t.ids.size
  unique {m n : String} {id : SymbolId} (hm : t.ids[m]? = some id) (hn : t.ids[n]? = some id) : m = n
  bound : t.ids.size < autoLabelBase

theorem numbered_empty : Numbered {} where
  range h := by simp at h
  unique h := by simp at h
  bound := by decide

variable {t after : IdentifierTable} {name : String} {id : SymbolId}

/-- Naming gives the number that the name has, or else the next one. -/
theorem of_intern (h : t.intern name = .ok (id, after)) :
    (t.ids[name]? = some id ∧ after = t) ∨
      (t.ids[name]? = none ∧ t.ids.size + 1 < autoLabelBase ∧ id = .ofNat (t.ids.size + 1)
        ∧ after = ⟨t.ids.insert name id⟩) := by
  unfold intern at h
  split at h
  · cases h
    exact .inl ⟨‹_›, rfl⟩
  · dsimp only at h
    split at h
    · cases h
      exact .inr ⟨‹_›, ‹_›, rfl, rfl⟩
    · cases h

theorem size_insert_of_none (absent : t.ids[name]? = none) (id : SymbolId) :
    (t.ids.insert name id).size = t.ids.size + 1 := by
  have unknown : t.ids.contains name = false := by
    rw [Std.ExtTreeMap.contains_eq_isSome_getElem?, absent]
    rfl
  simp [Std.ExtTreeMap.size_insert, unknown]

/-- The name can be found afterwards under its number. -/
theorem getElem?_of_intern (h : t.intern name = .ok (id, after)) : after.ids[name]? = some id := by
  obtain ⟨found, rfl⟩ | ⟨-, -, -, rfl⟩ := of_intern h
  · exact found
  · simp

/-- Names seen before keep their numbers. -/
theorem getElem?_intern_of_some (h : t.intern name = .ok (id, after)) {other : String} {k : SymbolId}
    (hk : t.ids[other]? = some k) : after.ids[other]? = some k := by
  obtain ⟨-, rfl⟩ | ⟨absent, -, -, rfl⟩ := of_intern h
  · exact hk
  · have different : name ≠ other := by
      rintro rfl
      rw [absent] at hk
      cases hk
    simpa [Std.ExtTreeMap.getElem?_insert, different] using hk

/-- A new name gets the next number, so numbers and names still match. -/
theorem Numbered.intern (numbered : t.Numbered) (h : t.intern name = .ok (id, after)) : after.Numbered := by
  obtain ⟨-, rfl⟩ | ⟨absent, room, rfl, rfl⟩ := of_intern h
  · exact numbered
  · have size := size_insert_of_none absent (UInt16.ofNat (t.ids.size + 1))
    have fresh : (UInt16.ofNat (t.ids.size + 1)).toNat = t.ids.size + 1 :=
      UInt16.toNat_ofNat_of_lt' (Nat.lt_trans room (by decide))
    refine ⟨fun {other k} hk => ?_, fun {m n k} hm hn => ?_, by rw [size]; exact room⟩
    · rw [size]
      rw [Std.ExtTreeMap.getElem?_insert] at hk
      split at hk
      · cases hk
        omega
      · have := numbered.range hk
        omega
    · -- a number given before is at most the old size, so it is not the new one
      rw [Std.ExtTreeMap.getElem?_insert] at hm hn
      split at hm <;> split at hn
      · simp_all
      · cases hm
        have := numbered.range hn
        omega
      · cases hn
        have := numbered.range hm
        omega
      · exact numbered.unique hm hn

theorem Numbered.toNat_lt (numbered : t.Numbered) (h : t.ids[name]? = some id) : id.toNat < autoLabelBase :=
  Nat.lt_of_le_of_lt (numbered.range h).2 numbered.bound

end Asm65.IdentifierTable
