import Std.Data.ExtTreeMap

/-!
# Ordered maps and their lists

Tables are written and walked through as lists of entries in the order of the keys, and read back by inserting
one entry after another.
-/

namespace Asm65.OrderedMap
set_option autoImplicit false

open Std

variable {κ ν : Type} [Ord κ] [TransOrd κ] (m : ExtTreeMap κ ν compare)

theorem values_eq : m.values = m.toList.map (·.2) := by
  have folded : m.values = m.foldr (fun _ v l => v :: l) [] := rfl
  rw [folded, ExtTreeMap.foldr_eq_foldr_toList]
  induction m.toList with
  | nil => rfl
  | cons e rest ih => rw [List.foldr_cons, ih, List.map_cons]

variable [LawfulEqOrd κ]

theorem mem_values {v : ν} : v ∈ m.values ↔ ∃ k : κ, m[k]? = some v := by
  rw [values_eq, List.mem_map]
  constructor
  · rintro ⟨⟨k, v⟩, mem, rfl⟩
    exact ⟨k, ExtTreeMap.mem_toList_iff_getElem?_eq_some.1 mem⟩
  · rintro ⟨k, found⟩
    exact ⟨(k, v), ExtTreeMap.mem_toList_iff_getElem?_eq_some.2 found, rfl⟩

/-- Inserting entries with different keys one after another gives the map with these entries. -/
theorem getElem?_foldl_insert {l : List (κ × ν)} (distinct : l.Pairwise fun a b => a.1 ≠ b.1) {k : κ} {v : ν} :
    (l.foldl (fun m e => m.insert e.1 e.2) (∅ : ExtTreeMap κ ν compare))[k]? = some v ↔ (k, v) ∈ l := by
  have apart : l.Pairwise fun a b => ¬compare a.1 b.1 = .eq :=
    distinct.imp fun different same => different (LawfulEqOrd.eq_of_compare same)
  have found {w : ν} (mem : (k, w) ∈ l) : (ExtTreeMap.ofList l compare)[k]? = some w :=
    ExtTreeMap.getElem?_ofList_of_mem ReflCmp.compare_self apart mem
  rw [← ExtTreeMap.ofList_eq_foldl]
  constructor
  · intro some
    have mem : k ∈ ExtTreeMap.ofList l compare := by
      rw [← ExtTreeMap.isSome_getElem?_iff_mem, some]
      rfl
    classical
    obtain ⟨⟨k, w⟩, entry, rfl⟩ := List.mem_map.1 (List.contains_iff_mem.1 (ExtTreeMap.mem_ofList.1 mem))
    rw [found entry] at some
    cases some
    exact entry
  · exact found

/-- A map is read back from the list of its entries. -/
theorem foldl_insert_toList : m.toList.foldl (fun m e => m.insert e.1 e.2) (∅ : ExtTreeMap κ ν compare) = m := by
  have distinct : m.toList.Pairwise fun a b => a.1 ≠ b.1 :=
    ExtTreeMap.distinct_keys_toList.imp fun apart same => apart (by rw [same]; exact ReflCmp.compare_self)
  refine ExtTreeMap.ext_getElem? fun {k} => Option.ext fun v => ?_
  rw [getElem?_foldl_insert distinct, ExtTreeMap.mem_toList_iff_getElem?_eq_some]

end Asm65.OrderedMap
