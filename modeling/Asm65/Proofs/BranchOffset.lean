import Asm65.Proofs.Result

/-!
# Where short branches land

The offset of a short branch counts from where the estimate takes the branch to end. For a target further on
that is where the branch ended in the last pass, so the branch lands on its target exactly if it ends there
again. A target that is given by the place of the branch itself has already been counted in this pass; if code
in front of the branch has shrunk, such a branch lands short.
-/

namespace Asm65.Assembler
set_option autoImplicit false

variable {s t : Assembler}

/-- Where the estimate takes a short branch to end. -/
def assumedEnd (last : Option ReachEntry) (here target : UInt16) : Nat :=
  if here < target then (last.map fun last => last.here.toNat + last.length).getD (here.toNat + 2)
  else here.toNat + 2

theorem corrected_eq (last : Option ReachEntry) (here target : UInt16) :
    corrected last here target 2 = (target.toNat : Int) - assumedEnd last here target := by
  unfold corrected assumedEnd distance
  dsimp only
  split
  · cases last with
    | none => simp
    | some last =>
      simp only [Option.map_some, Option.getD_some]
      omega
  · omega

/-- An offset in reach is read back from its byte. -/
theorem toInt_offsetByte {k : Int} (h : inReach k = true) : (offsetByte k).toInt8.toInt = k := by
  have bounds : -128 ≤ k ∧ k ≤ 127 := by simpa [inReach] using h
  unfold offsetByte
  rw [UInt8.toInt8_ofNat', Int8.toInt_ofNat', Int.toNat_of_nonneg (Int.emod_nonneg k (by decide))]
  rw [show Int8.size = 256 from rfl, Int.bmod_def]
  omega

theorem HasBytes.getElem? {space : Space} {offset : Nat} {bs : Array UInt8} (h : s.HasBytes space offset bs) {i : Nat}
    (hi : i < bs.size) : (s.segment space).bytes[offset + i]? = bs[i]? := by
  obtain ⟨before, after, same, rfl⟩ := h
  rw [same, Array.append_assoc, Array.getElem?_append_right (Nat.le_add_right _ _), Nat.add_sub_cancel_left,
    Array.getElem?_append_left hi]

/-- A branch of a run that succeeds is either short, and then lands on its target exactly if the estimate took it
to end where it does, or it is written with a jump. -/
theorem short_branch_lands_iff {root : Nat} {asm : Assembly} (new : s.IsNew) (run : s.run root = (.ok asm, t))
    {index : Nat} {pos : Position} {site target : Address} {reach : Reach}
    (mem : .branch index pos site target reach ∈ t.trace) :
    ∃ space offset, site = .inSpace space (.ofNat offset)
      ∧ ((∃ op b, (asm.object.segment space).bytes[offset]? = some op
            ∧ (asm.object.segment space).bytes[offset + 1]? = some b
            ∧ reach = .short b.toInt8.toInt ∧ target.origin = .space space ∧ target.part = .word
            ∧ ((offset : Int) + 2 + b.toInt8.toInt = target.value.toNat ↔
                assumedEnd (logged? t.lastReachLog index pos) site.value target.value = offset + 2))
        ∨ ∃ d, reach = .far d
            ∧ ((asm.object.segment space).bytes[offset]? = some Opcode.jump
              ∨ (asm.object.segment space).bytes[offset + 1]? = some 3
                ∧ (asm.object.segment space).bytes[offset + 2]? = some Opcode.jump)) := by
  obtain ⟨b, u, last, concludes⟩ := exists_lastPass new run
  rw [concludes.trace] at mem
  rw [concludes.object, concludes.lastReachLog]
  have written := last.holds _ mem
  cases reach with
  | short k =>
    obtain ⟨space, offset, op, hsite, bytes, origin, part, reaches, corrects⟩ := written
    have read := toInt_offsetByte reaches
    refine ⟨space, offset, hsite, .inl ⟨op, offsetByte k, bytes.getElem? (i := 0) (by simp), bytes.getElem? (by simp),
      by rw [read], origin, part, ?_⟩⟩
    rw [read, corrects, corrected_eq]
    omega
  | far d =>
    obtain held | ⟨space, offset, bs, hsite, bytes, long⟩ := written
    · -- an error held for the end would have failed the run
      exact absurd concludes.provisional held
    · refine ⟨space, offset, hsite, .inr ⟨d, rfl, ?_⟩⟩
      obtain rfl | ⟨op, rfl⟩ := long
      · exact .inl (bytes.getElem? (i := 0) (by simp))
      · exact .inr ⟨bytes.getElem? (i := 1) (by simp), bytes.getElem? (i := 2) (by simp)⟩
  | unknown =>
    have known : target.isUndefined = false := last.isBlind_eq_false mem
    rw [show target.isUndefined = true from written] at known
    cases known

/-- A branch ahead to a label, after an instruction that got shorter. In the pass before the last one the branch
already ended where it ends now. -/
theorem short_branch_lands_on_label :
    ∃ asm t, (ofText "  lda p\n  bne q\n  nop\n  nop\nq: nop\n  zpage\np: ds 1\n").run 0 = (.ok asm, t)
      ∧ .branch 0 ⟨0, 2, 3⟩ (.inSpace .code 2) (.inSpace .code 6) (.short 2) ∈ t.trace
      ∧ assumedEnd (logged? t.lastReachLog 0 ⟨0, 2, 3⟩) 2 6 = 4
      ∧ ∃ space offset op b, Address.inSpace .code 2 = .inSpace space (.ofNat offset)
        ∧ (asm.object.segment space).bytes[offset]? = some op ∧ (asm.object.segment space).bytes[offset + 1]? = some b
        ∧ ((offset : Int) + 2 + b.toInt8.toInt = 6 ↔ 4 = offset + 2) := by
  obtain ⟨asm, t, run, checked⟩ := exists_run (ofText "  lda p\n  bne q\n  nop\n  nop\nq: nop\n  zpage\np: ds 1\n") 0
    (fun _ t => decide (.branch 0 ⟨0, 2, 3⟩ (.inSpace .code 2) (.inSpace .code 6) (.short 2) ∈ t.trace)
      && decide (assumedEnd (logged? t.lastReachLog 0 ⟨0, 2, 3⟩) 2 6 = 4)) (by decide +kernel)
  rw [Bool.and_eq_true, decide_eq_true_eq, decide_eq_true_eq] at checked
  obtain ⟨mem, ends⟩ := checked
  obtain ⟨space, offset, hsite, ⟨op, b, first, second, -, -, -, lands⟩ | ⟨d, far, -⟩⟩ :=
    short_branch_lands_iff (isNew_ofText _) run mem
  · exact ⟨asm, t, run, mem, ends, space, offset, op, b, hsite, first, second, ends ▸ lands⟩
  · cases far

/-- A branch five bytes ahead of its own place, after an instruction that got shorter. It lands on the byte before:
the place was already counted in this pass, and the offset is corrected for the pass before. -/
theorem branch_to_location_lands_short :
    ∃ asm t, (ofText "  lda p\n  bne *+5\n  nop\n  nop\n  nop\n  zpage\np: ds 1\n").run 0 = (.ok asm, t)
      ∧ .branch 0 ⟨0, 2, 3⟩ (.inSpace .code 2) (.inSpace .code 7) (.short 2) ∈ t.trace
      ∧ (asm.object.segment .code).bytes[2 + 1]? = some 2 ∧ (2 : Int) + 2 + (2 : UInt8).toInt8.toInt ≠ 7 := by
  obtain ⟨asm, t, run, checked⟩ := exists_run (ofText "  lda p\n  bne *+5\n  nop\n  nop\n  nop\n  zpage\np: ds 1\n") 0
    (fun asm t => decide (.branch 0 ⟨0, 2, 3⟩ (.inSpace .code 2) (.inSpace .code 7) (.short 2) ∈ t.trace)
      && decide ((asm.object.segment .code).bytes[2 + 1]? = some 2)) (by decide +kernel)
  rw [Bool.and_eq_true, decide_eq_true_eq, decide_eq_true_eq] at checked
  exact ⟨asm, t, run, checked.1, checked.2, by decide⟩

end Asm65.Assembler
