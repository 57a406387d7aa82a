import Asm65.Proofs.Emission

/-!
# What an instruction adds

An instruction is written whole or not at all. Its form in the source leaves a few addressing modes to choose from. If
the processor has one of them, the opcode of that mode is written with as many bytes behind it as the mode has;
otherwise nothing is. A branch takes two bytes, or three or five with an absolute jump. The operand leaves at most one
use, at its first byte. Nothing else of the state changes but reports, the log of branches and the trace
(`encode_writes_form`).
-/

namespace Asm65
set_option autoImplicit false

/-- The addressing modes that a form of operand can stand for. -/
def Operand.modes {α : Type} : Operand α → List Mode
  | .none => [.implied, .accumulator]
  | .accumulator => [.accumulator]
  | .immediate _ => [.immediate]
  | .direct _ .none => [.relative, .zeroPage, .absolute]
  | .direct _ .x => [.zeroPageX, .absoluteX]
  | .direct _ .y => [.zeroPageY, .absoluteY]
  | .indirect _ => [.indirect, .zeroPageIndirect]
  | .indexedIndirect _ => [.absoluteIndexedIndirect, .indexedIndirect]
  | .indirectIndexed _ => [.indirectIndexed]

namespace Assembler

variable {s t u : Assembler} {m : Mnemonic} {o : Operand Address} {mode : Mode} {pos : Position}

/-- From `s` to `t` the bytes `bs` have been added to the current segment, and at most one use, at the byte of them that
`place` numbers. What else may differ are reports, the log of branches and the trace. -/
structure Lays (s t : Assembler) (place : Option Nat) (bs : Array UInt8) : Prop where
  kept : ∃ segments uses diagnostics provisional reachLog trace,
    t = { s with segments, uses, diagnostics, provisional, reachLog, trace }
  bytes : t.segments = s.segments.modify s.current (·.append bs)
  uses : t.uses = s.uses ∨ ∃ k ∈ place, ∃ v,
    t.uses = s.uses.insert (.inSpace s.current (.ofNat ((s.segment s.current).size + k))) v

/-- From `s` to `t` nothing has been written but reports, the log of branches and the trace. -/
def Noted (s t : Assembler) : Prop :=
  ∃ diagnostics provisional reachLog trace, t = { s with diagnostics, provisional, reachLog, trace }

/-! ### Operands -/

namespace Lays

variable {place : Option Nat} {bs cs : Array UInt8}

theorem current (h : s.Lays t place bs) : t.current = s.current := by
  obtain ⟨_, _, _, _, _, _, rfl⟩ := h.kept
  rfl

theorem size (h : s.Lays t place bs) : (t.segment t.current).size = (s.segment s.current).size + bs.size := by
  rw [h.current, segment, h.bytes, PerSpace.get_modify_self, Segment.size_append]
  rfl

/-- Bytes without a use, and others behind them. -/
theorem andThen (h : s.Lays t none bs) (k : t.Lays u place cs) : s.Lays u (place.map (bs.size + ·)) (bs ++ cs) := by
  have uses : t.uses = s.uses := by
    obtain same | ⟨_, none, -⟩ := h.uses
    · exact same
    · cases none
  refine ⟨?_, ?_, ?_⟩
  · obtain ⟨_, _, _, _, _, _, rfl⟩ := h.kept
    obtain ⟨_, _, _, _, _, _, rfl⟩ := k.kept
    exact ⟨_, _, _, _, _, _, rfl⟩
  · rw [k.bytes, h.bytes, h.current, PerSpace.modify_modify]
    simp only [Function.comp_def, Segment.append_append]
  · obtain same | ⟨i, mem, v, added⟩ := k.uses
    · exact .inl (same.trans uses)
    · refine .inr ⟨bs.size + i, Option.mem_map_of_mem _ mem, v, ?_⟩
      rw [added, uses, h.size, h.current, Nat.add_assoc]

theorem log (h : s.Lays t place bs) (e : Event) : s.Lays (t.log e) place bs := by
  obtain ⟨_, _, _, _, _, _, rfl⟩ := h.kept
  exact ⟨⟨_, _, _, _, _, _, rfl⟩, h.bytes, h.uses⟩

/-- What may differ afterwards may differ before. -/
theorem of_noted (noted : s.Noted t) (h : t.Lays u place bs) : s.Lays u place bs := by
  obtain ⟨_, _, _, _, rfl⟩ := noted
  obtain ⟨_, _, _, _, _, _, rfl⟩ := h.kept
  exact ⟨⟨_, _, _, _, _, _, rfl⟩, h.bytes, h.uses⟩

end Lays

theorem lays_emitAll (s : Assembler) (bs : Array UInt8) : s.Lays (s.emitAll bs) none bs :=
  ⟨⟨_, _, _, _, _, _, rfl⟩, rfl, .inl rfl⟩

theorem lays_emitByteOperand (s : Assembler) (pos : Position) (a : Address) :
    ∃ b, s.Lays (s.emitByteOperand pos a) (some 0) #[b] := by
  unfold emitByteOperand
  dsimp only
  simp only [emit_eq_emitAll]
  split
  · split <;> exact ⟨_, ⟨_, _, _, _, _, _, rfl⟩, rfl, .inl rfl⟩
  · exact ⟨_, ⟨_, _, _, _, _, _, rfl⟩, rfl, .inl rfl⟩
  · split
    · split
      · exact ⟨_, ⟨_, _, _, _, _, _, rfl⟩, rfl, .inr ⟨0, rfl, _, rfl⟩⟩
      · exact ⟨_, ⟨_, _, _, _, _, _, rfl⟩, rfl, .inl rfl⟩
    · exact ⟨_, ⟨_, _, _, _, _, _, rfl⟩, rfl, .inr ⟨0, rfl, _, rfl⟩⟩

theorem lays_emitWord (s : Assembler) (a : Address) : ∃ low high, s.Lays (s.emitWord a) (some 0) #[low, high] := by
  unfold emitWord
  dsimp only
  simp only [emit_eq_emitAll, emitAll_emitAll]
  split
  · exact ⟨_, _, ⟨_, _, _, _, _, _, rfl⟩, rfl, .inl rfl⟩
  · exact ⟨_, _, ⟨_, _, _, _, _, _, rfl⟩, rfl, .inl rfl⟩
  · exact ⟨_, _, ⟨_, _, _, _, _, _, rfl⟩, rfl, .inr ⟨0, rfl, _, rfl⟩⟩

theorem lays_emitPointer (s : Assembler) (pos : Position) (a : Address) :
    ∃ low high, s.Lays (s.emitPointer pos a) (some 0) #[low, high] := by
  unfold emitPointer
  split
  · have word := lays_emitWord ((s.log (.operand s.here a)).record (.at_ (.byteAsPointer a) pos)) (.constant 0)
    obtain ⟨low, high, zeros⟩ := word
    exact ⟨low, high, .of_noted ⟨_, _, _, _, rfl⟩ zeros⟩
  · exact lays_emitWord s a

/-! ### Instructions -/

/-- What comes of writing an instruction. -/
inductive Encoded (m : Mnemonic) (o : Operand Address) (s : Assembler) :
    EStateM.Result Error Assembler Unit → Prop where
  /-- The processor has the instruction in none of the modes, and nothing is written. -/
  | unsupported {e : Error} (missing : ∀ mode ∈ o.modes, s.cpu.opcode? m mode = none) : Encoded m o s (.error e s)
  /-- A branch leads out of the current space; that is logged, and nothing is written. -/
  | outOfSpace {a : Address} {op : UInt8} {e : Error} {entry : ReachEntry} (form : o = .direct a .none)
      (opcode : s.cpu.opcode? m .relative = some op) (known : a.isUndefined = false)
      (away : a.origin ≠ .space s.current ∨ a.part ≠ .word) :
      Encoded m o s (.error e { s with reachLog := s.reachLog.push entry })
  /-- An opcode and its operand. -/
  | plain {mode : Mode} {op : UInt8} {bs : Array UInt8} {t : Assembler} (form : mode ∈ o.modes)
      (other : .relative ∈ o.modes → s.cpu.opcode? m .relative = none) (opcode : s.cpu.opcode? m mode = some op)
      (size : bs.size = mode.operandSize) (lays : s.Lays t (if bs.size = 0 then none else some 1) (#[op] ++ bs)) :
      Encoded m o s (.ok () t)
  | short {a : Address} {op offset : UInt8} {t : Assembler} (form : o = .direct a .none)
      (opcode : s.cpu.opcode? m .relative = some op) (lays : s.Lays t none #[op, offset]) : Encoded m o s (.ok () t)
  /-- A jump in place of a branch that is always taken. -/
  | jump {a : Address} {low high : UInt8} {t : Assembler} (form : o = .direct a .none)
      (opcode : s.cpu.opcode? m .relative = some Opcode.branchAlways) (long : s.options.longBranches = true)
      (lays : s.Lays t (some 1) #[Opcode.jump, low, high]) : Encoded m o s (.ok () t)
  /-- The opposite branch around a jump. -/
  | around {a : Address} {op low high : UInt8} {t : Assembler} (form : o = .direct a .none)
      (opcode : s.cpu.opcode? m .relative = some op) (other : op ≠ Opcode.branchAlways)
      (long : s.options.longBranches = true)
      (lays : s.Lays t (some 3) #[Opcode.inverted op, 3, Opcode.jump, low, high]) : Encoded m o s (.ok () t)

namespace Encoded

/-- A computation that first looks at the state. -/
theorem get {f : Assembler → Asm Unit} (h : Encoded m o s (f s s)) : Encoded m o s ((MonadState.get >>= f) s) := h

/-- The opcode alone. -/
theorem bare {op : UInt8} (form : mode ∈ o.modes) (other : .relative ∈ o.modes → s.cpu.opcode? m .relative = none)
    (opcode : s.cpu.opcode? m mode = some op) (size : mode.operandSize = 0) :
    Encoded m o s (Asm.emitOpcode m mode pos s) := by
  have run : Asm.emitOpcode m mode pos s = .ok () (s.emit op) := by rw [Asm.emitOpcode, opcode]
  rw [run, emit_eq_emitAll]
  have none : (#[] : Array UInt8).size = mode.operandSize := size.symm
  exact .plain form other opcode none (lays_emitAll s #[op])

section Operand

variable (form : mode ∈ o.modes) (other : .relative ∈ o.modes → s.cpu.opcode? m .relative = none)
  (missing : ∀ n ∈ o.modes, n ≠ mode → s.cpu.opcode? m n = none ∨ (s.cpu.opcode? m mode).isSome)

include form other missing

/-- The opcode of a mode, and what is written behind it. The mode is there, or no other is. -/
theorem withOperand {write : Assembler → Assembler}
    (operand : ∀ t : Assembler, ∃ bs, bs.size = mode.operandSize ∧ 0 < bs.size ∧ t.Lays (write t) (some 0) bs) :
    Encoded m o s (Asm.emitWith m mode pos write s) := by
  show Encoded m o s (EStateM.bind (Asm.emitOpcode m mode pos) _ s)
  unfold EStateM.bind Asm.emitOpcode
  cases opcode : s.cpu.opcode? m mode with
  | none =>
    refine .unsupported fun n mem => ?_
    by_cases same : n = mode
    · rw [same, opcode]
    · exact (missing n mem same).resolve_right (by simp [opcode])
  | some op =>
    obtain ⟨bs, size, some, lays⟩ := operand (s.emitAll #[op])
    show Encoded m o s (.ok () (write (s.emit op)))
    rw [emit_eq_emitAll]
    refine .plain form other opcode size ?_
    rw [if_neg (Nat.ne_of_gt some)]
    exact (lays_emitAll s #[op]).andThen lays

theorem withByte (size : mode.operandSize = 1) (a : Address) :
    Encoded m o s (Asm.emitWithByte m mode a pos s) := by
  refine withOperand form other missing fun t => ?_
  obtain ⟨b, lays⟩ := lays_emitByteOperand t pos a
  exact ⟨#[b], size.symm, Nat.one_pos, lays.log _⟩

theorem withWord (size : mode.operandSize = 2) (a : Address) :
    Encoded m o s (Asm.emitWithWord m mode a pos s) := by
  refine withOperand form other missing fun t => ?_
  obtain ⟨low, high, lays⟩ := lays_emitWord t a
  exact ⟨#[low, high], size.symm, Nat.two_pos, lays⟩

theorem withPointer (size : mode.operandSize = 2) (a : Address) :
    Encoded m o s (Asm.emitWithPointer m mode a pos s) := by
  refine withOperand form other missing fun t => ?_
  obtain ⟨low, high, lays⟩ := lays_emitPointer t pos a
  exact ⟨#[low, high], size.symm, Nat.two_pos, lays⟩

end Operand

end Encoded

/-! ### Branches -/

/-- A branch is refused only if its target is known and not in the current space. -/
theorem away_of_estimate {target : Address} {long index length : Nat} {e : Error}
    (h : s.estimate pos target 2 long index = (.error e, length)) :
    target.isUndefined = false ∧ (target.origin ≠ .space s.current ∨ target.part ≠ .word) := by
  unfold estimate at h
  dsimp only at h
  split at h
  · cases h
  · rename_i known
    split at h
    · rename_i away
      rw [Bool.or_eq_true, bne_iff_ne, bne_iff_ne] at away
      exact ⟨Bool.not_eq_true _ ▸ known, away⟩
    · split at h <;> cases h

section Forms

variable {a : Address} {op : UInt8} (noted : s.Noted t)

include noted

theorem encoded_emitShort (opcode : s.cpu.opcode? m .relative = some op) (offset : Int) :
    Encoded m (.direct a .none) s (Asm.emitShort op offset t) := by
  rw [emitShort_eq]
  exact .short rfl opcode (.of_noted noted (lays_emitAll t _))

theorem encoded_emitJump (opcode : s.cpu.opcode? m .relative = some Opcode.branchAlways)
    (long : s.options.longBranches = true) : Encoded m (.direct a .none) s (Asm.emitJump a pos t) := by
  obtain ⟨low, high, pointer⟩ := lays_emitPointer (t.emitAll #[Opcode.jump]) pos a
  rw [emitJump_eq]
  exact .jump rfl opcode long (.of_noted noted ((lays_emitAll t _).andThen pointer))

theorem encoded_emitAround (opcode : s.cpu.opcode? m .relative = some op) (other : op ≠ Opcode.branchAlways)
    (long : s.options.longBranches = true) : Encoded m (.direct a .none) s (Asm.emitAround op a pos t) := by
  obtain ⟨low, high, pointer⟩ := lays_emitPointer (t.emitAll #[Opcode.inverted op, 3, Opcode.jump]) pos a
  rw [emitAround_eq]
  exact .around rfl opcode other long (.of_noted noted ((lays_emitAll t _).andThen pointer))

end Forms

/-- A branch is refused if its target is known to lie elsewhere, and else written short, as a jump or around one. -/
theorem encoded_branch {a : Address} {op : UInt8} (opcode : s.cpu.opcode? m .relative = some op) :
    Encoded m (.direct a .none) s (Asm.branch op a pos s) := by
  show Encoded m _ s (EStateM.bind (Asm.reach pos a 2 _) _ s)
  unfold EStateM.bind Asm.reach
  dsimp only
  generalize decided : s.estimate pos a 2 _ s.reachLog.size = result
  obtain ⟨outcome, length⟩ := result
  cases outcome with
  | error e =>
    obtain ⟨known, away⟩ := away_of_estimate decided
    exact .outOfSpace rfl opcode known away
  | ok reach =>
    dsimp only
    split
    · exact encoded_emitShort ⟨_, _, _, _, rfl⟩ opcode _
    · split
      · split
        · exact encoded_emitShort ⟨_, _, _, _, rfl⟩ opcode 0
        · exact encoded_emitShort ⟨_, _, _, _, rfl⟩ opcode 0
      · rename_i long
        rw [Bool.not_eq_true, Bool.not_eq_false'] at long
        split
        · rename_i always
          rw [beq_iff_eq.1 always] at opcode
          exact encoded_emitJump ⟨_, _, _, _, rfl⟩ opcode long
        · rename_i other
          exact encoded_emitAround ⟨_, _, _, _, rfl⟩ opcode (fun always => other (beq_iff_eq.2 always)) long

/-! ### All forms -/

theorem mem_modes_direct {a : Address} {index : Index} :
    mode ∈ (Operand.direct a index).modes ↔
      (index = .none ∧ mode = .relative) ∨ mode = (Asm.directModes index).1 ∨ mode = (Asm.directModes index).2 := by
  cases index <;> simp [Operand.modes, Asm.directModes]

/-- A direct operand takes the short form if the processor has it and the address fits, or if there is no long one. -/
theorem encoded_emitDirect (a : Address) (index : Index) (plain : index = .none → s.cpu.opcode? m .relative = none) :
    Encoded m (.direct a index) s (Asm.emitDirect m a index pos s) := by
  have other (mem : .relative ∈ (Operand.direct a index).modes) : s.cpu.opcode? m .relative = none := by
    cases index with
    | none => exact plain rfl
    | x | y => simp [Operand.modes] at mem
  have sizes : (Asm.directModes index).1.operandSize = 1 ∧ (Asm.directModes index).2.operandSize = 2 := by
    cases index <;> exact ⟨rfl, rfl⟩
  refine .get ?_
  dsimp only
  split
  · rename_i short
    have has := (Bool.and_eq_true_iff.1 short).1
    exact .withByte (mem_modes_direct.2 (.inr (.inl rfl))) other (fun _ _ _ => .inr has) sizes.1 a
  · rename_i long
    -- the short form is missing, or the long one is there as well
    have missing (n : Mode) (mem : n ∈ (Operand.direct a index).modes) (differs : n ≠ (Asm.directModes index).2) :
        s.cpu.opcode? m n = none ∨ (s.cpu.opcode? m (Asm.directModes index).2).isSome := by
      obtain ⟨rfl, rfl⟩ | rfl | rfl := mem_modes_direct.1 mem
      · exact .inl (plain rfl)
      · rw [Bool.and_eq_true, Bool.or_eq_true, Decidable.not_and_iff_or_not, not_or, Bool.not_eq_true',
          Bool.not_eq_false] at long
        exact long.imp Option.not_isSome_iff_eq_none.1 And.right
      · exact absurd rfl differs
    have form : (Asm.directModes index).2 ∈ (Operand.direct a index).modes := mem_modes_direct.2 (.inr (.inr rfl))
    split
    · exact .withPointer form other missing sizes.2 a
    · exact .withWord form other missing sizes.2 a

/-- Of two modes the first is taken if the processor has it. -/
theorem missing_of_second {first second : Mode} (modes : o.modes = [first, second])
    (absent : ¬s.cpu.has m first = true) (n : Mode) (mem : n ∈ o.modes) (differs : n ≠ second) :
    s.cpu.opcode? m n = none ∨ (s.cpu.opcode? m second).isSome := by
  rw [modes] at mem
  rw [((List.mem_cons.1 mem).imp_right List.mem_singleton.1).resolve_right differs]
  exact .inl (Option.not_isSome_iff_eq_none.1 absent)

/-- An instruction is written whole, in a form that its operand allows, or not at all. -/
theorem encode_writes_form (m : Mnemonic) (o : Operand Address) (pos : Position) (s : Assembler) :
    Encoded m o s (Asm.encode m o pos s) := by
  have alone {o : Operand Address} {mode : Mode} (modes : o.modes = [mode]) (n : Mode) (mem : n ∈ o.modes)
      (differs : n ≠ mode) : s.cpu.opcode? m n = none ∨ (s.cpu.opcode? m mode).isSome := by
    rw [modes] at mem
    exact absurd (List.mem_singleton.1 mem) differs
  refine .get ?_
  cases o with
  | none =>
    dsimp only
    split
    · rename_i has
      obtain ⟨op, opcode⟩ := Option.isSome_iff_exists.1 has
      exact .bare (by simp [Operand.modes]) (by simp [Operand.modes]) opcode rfl
    · split
      · rename_i has
        obtain ⟨op, opcode⟩ := Option.isSome_iff_exists.1 has
        exact .bare (by simp [Operand.modes]) (by simp [Operand.modes]) opcode rfl
      · rename_i implied accumulator
        refine .unsupported fun n mem => ?_
        obtain rfl | rfl := (List.mem_cons.1 mem).imp_right List.mem_singleton.1
        · exact Option.not_isSome_iff_eq_none.1 implied
        · exact Option.not_isSome_iff_eq_none.1 accumulator
  | accumulator =>
    dsimp only
    split
    · rename_i has
      obtain ⟨op, opcode⟩ := Option.isSome_iff_exists.1 has
      exact .bare (by simp [Operand.modes]) (by simp [Operand.modes]) opcode rfl
    · rename_i absent
      refine .unsupported fun n mem => ?_
      rw [List.mem_singleton.1 mem]
      exact Option.not_isSome_iff_eq_none.1 absent
  | immediate a => exact .withByte (by simp [Operand.modes]) (by simp [Operand.modes]) (alone rfl) rfl a
  | direct a index =>
    cases index with
    | none =>
      dsimp only
      cases opcode : s.cpu.opcode? m .relative with
      | some op => exact encoded_branch opcode
      | none => exact encoded_emitDirect a .none fun _ => opcode
    | x => exact encoded_emitDirect a .x fun differs => by cases differs
    | y => exact encoded_emitDirect a .y fun differs => by cases differs
  | indirect a =>
    dsimp only
    split
    · rename_i has
      exact .withPointer (by simp [Operand.modes]) (by simp [Operand.modes]) (fun _ _ _ => .inr has) rfl a
    · rename_i absent
      exact .withByte (by simp [Operand.modes]) (by simp [Operand.modes]) (missing_of_second rfl absent) rfl a
  | indexedIndirect a =>
    dsimp only
    split
    · rename_i has
      exact .withPointer (by simp [Operand.modes]) (by simp [Operand.modes]) (fun _ _ _ => .inr has) rfl a
    · rename_i absent
      exact .withByte (by simp [Operand.modes]) (by simp [Operand.modes]) (missing_of_second rfl absent) rfl a
  | indirectIndexed a => exact .withByte (by simp [Operand.modes]) (by simp [Operand.modes]) (alone rfl) rfl a

end Assembler

end Asm65
