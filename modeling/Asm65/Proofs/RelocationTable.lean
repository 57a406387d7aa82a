import Asm65.Proofs.Footprint
import Asm65.Proofs.Result
import Asm65.Proofs.RunNames
import Asm65.Proofs.UseTable

/-!
# The relocation table of an assembled module

What the linker needs of the uses of a module holds of every module that a run gives: each use lies in a segment over
bytes of its own, these are its value before linking, and the value is one that linking decides.
-/

namespace Asm65
set_option autoImplicit false

namespace Assembler

variable {s t : Assembler} {root : Nat} {asm : Assembly}

/-- The table of a run is that of its last pass. -/
theorem exists_tabled (new : s.IsNew) (run : s.run root = (.ok asm, t))
    (fits : ∀ space, (asm.object.segment space).size ≤ 65536) :
    ∃ u : Assembler, u.Tabled ∧ u.Fits ∧ asm.object = u.toObject ∧ t.trace = u.trace := by
  obtain ⟨b, u, last, concludes⟩ := exists_lastPass new run
  rw [concludes.object] at fits
  exact ⟨u, last.tabled fits, fits, concludes.object, concludes.trace⟩

/-- An external use refers to a symbol of the module. -/
theorem exists_external_of_use (new : s.IsNew) (run : s.run root = (.ok asm, t))
    (fits : ∀ space, (asm.object.segment space).size ≤ 65535) {site value : Address} {id : SymbolId}
    (used : asm.object.uses[site]? = some value) (origin : value.origin = .external id) :
    ∃ sym, asm.object.symbols[id]? = some sym ∧ (s.files.NamesOneFile t.files → sym.address = .external id) := by
  obtain ⟨u, tabled, -, object, trace⟩ := exists_tabled new run fun space => Nat.le_succ_of_le (fits space)
  rw [object] at used
  obtain ⟨space, offset, inPlace⟩ := tabled.inPlace used
  obtain ⟨k, name, v, asked, external⟩ := inPlace.drawn.asked origin
  exact exists_external new run (trace ▸ asked) external

/-- Modules of runs have what linking asks of the uses of its modules. -/
theorem sited_of_run (new : s.IsNew) (run : s.run root = (.ok asm, t))
    (fits : ∀ space, (asm.object.segment space).size ≤ 65535) (one : s.files.NamesOneFile t.files) :
    asm.object.Sited := by
  obtain ⟨u, tabled, small, object, -⟩ := exists_tabled new run fun space => Nat.le_succ_of_le (fits space)
  refine ⟨fun {site value} used => ?_, fun {site value site' value'} used used' => ?_,
    fun {site value id} used origin => ?_⟩
  · rw [object] at used ⊢
    exact tabled.contained small used
  · rw [object] at used used'
    exact tabled.apart used used'
  · obtain ⟨sym, found, external⟩ := exists_external_of_use new run fits used origin
    exact ⟨sym, found, by rw [external one]; rfl⟩

end Assembler

end Asm65
