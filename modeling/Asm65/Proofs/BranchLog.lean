import Asm65.Proofs.ForwardReference
import Asm65.Proofs.InstructionForm

/-!
# What the log says of branches

The length of a branch is noted in the log before its bytes are written, in one place for all forms that a branch can
take. Whatever is decided, the form written afterwards has that length, and it starts at the place noted
(`branches_tally`). So the estimates of the next pass start from what this pass did.
-/

namespace Asm65
set_option autoImplicit false

/-- What a processor writes to go on at another place. -/
inductive Transfer where
  /-- A branch of the source. -/
  | branch (op : UInt8)
  /-- A branch of a structured block, taken if the condition holds. -/
  | branchIf (c : Condition)
  /-- A jump of a structured block. -/
  | jump

def Transfer.write : Transfer → Address → Position → Asm Unit
  | .branch op => Asm.branch op
  | .branchIf c => Asm.branchIf c
  | .jump => Asm.jump

namespace Assembler

variable {s t u : Assembler} {target : Address} {pos : Position} {long : Nat} {r : Reach}

/-- From `s`, a decision about a branch leads to `t` with an entry in the log, and writing the branch from there to `u`
with the bytes `bs`. The entry has their number and the offset of the first. -/
structure Tallies (s t u : Assembler) (entry : ReachEntry) (bs : Array UInt8) : Prop where
  logged : t.reachLog = s.reachLog.push entry
  kept : u.reachLog = t.reachLog
  unwritten : t.segments = s.segments
  written : u.segments = s.segments.modify s.current (·.append bs)
  nonempty : 0 < bs.size
  length : entry.length = bs.size
  place : (s.segment s.current).size < 0x10000 → entry.here.toNat = (s.segment s.current).size

/-- From `s`, the computation asks first whether a branch reaches. If that is decided, it goes on to write what the
log says. -/
def WritesAsLogged (target : Address) (pos : Position) (s : Assembler) (x : Asm Unit) : Prop :=
  ∃ long next, x s = (Asm.reach pos target 2 long >>= next) s
    ∧ ∀ r t, Asm.reach pos target 2 long s = .ok r t →
      ∃ u entry bs, next r t = .ok () u ∧ Tallies s t u entry bs

/-! ### Lengths -/

/-- The computation adds so many bytes, and leaves the log of branches. -/
def Lengthens (n : Nat) (s : Assembler) (x : Asm Unit) : Prop :=
  ∃ u bs, x s = .ok () u ∧ u.segments = s.segments.modify s.current (·.append bs) ∧ bs.size = n
    ∧ u.reachLog = s.reachLog

theorem reachLog_emitPointer (s : Assembler) (pos : Position) (a : Address) :
    (s.emitPointer pos a).reachLog = s.reachLog := by
  have word (s : Assembler) (a : Address) : (s.emitWord a).reachLog = s.reachLog := by
    obtain ⟨_, _, _, same, -⟩ := s.emitWord_eq a
    rw [same]
    rfl
  unfold emitPointer
  split
  · exact word _ _
  · exact word s a

theorem lengthens_emitShort (s : Assembler) (op : UInt8) (k : Int) : Lengthens 2 s (Asm.emitShort op k) :=
  ⟨_, _, emitShort_eq op k s, rfl, rfl, rfl⟩

theorem lengthens_emitJump (s : Assembler) (target : Address) (pos : Position) :
    Lengthens 3 s (Asm.emitJump target pos) := by
  obtain ⟨low, high, pointer⟩ := lays_emitPointer (s.emitAll #[Opcode.jump]) pos target
  exact ⟨_, _, emitJump_eq target pos s, ((lays_emitAll s _).andThen pointer).bytes, rfl, reachLog_emitPointer ..⟩

theorem lengthens_emitAround (s : Assembler) (op : UInt8) (target : Address) (pos : Position) :
    Lengthens 5 s (Asm.emitAround op target pos) := by
  obtain ⟨low, high, pointer⟩ := lays_emitPointer (s.emitAll #[Opcode.inverted op, 3, Opcode.jump]) pos target
  exact ⟨_, _, emitAround_eq op target pos s, ((lays_emitAll s _).andThen pointer).bytes, rfl, reachLog_emitPointer ..⟩

/-- What is not in reach gets the length that options and opcode say. -/
theorem lengthens_longForm {o : Options} {op : UInt8} {short : Asm Unit} (two : Lengthens 2 s short) :
    Lengthens (longForm o op) s (if !o.longBranches then short else if op == Opcode.branchAlways then
      Asm.emitJump target pos else Asm.emitAround op target pos) := by
  unfold longForm
  split
  · exact two
  · split
    · exact lengthens_emitJump s target pos
    · exact lengthens_emitAround s op target pos

/-! ### Decisions -/

theorem toNat_value_here (fits : (s.segment s.current).size < 0x10000) :
    s.here.value.toNat = (s.segment s.current).size :=
  UInt16.toNat_ofNat_of_lt' fits

namespace WritesAsLogged

/-- A decision, and for each answer a form of the length noted for it. -/
theorem reach {next : Reach → Asm Unit} (two : 2 ≤ long) (forms : ∀ r t, Lengthens (branchLength long r) t (next r)) :
    WritesAsLogged target pos s (Asm.reach pos target 2 long >>= next) := by
  refine ⟨long, next, rfl, fun r t answer => ?_⟩
  obtain ⟨length, decided, rfl⟩ := exists_of_reach answer
  obtain ⟨u, bs, run, written, size, kept⟩ := forms r _
  rw [← length_of_estimate decided] at size
  have nonempty : 0 < length := Nat.lt_of_lt_of_le Nat.two_pos (estimate_length two decided)
  exact ⟨u, _, bs, run, rfl, kept, rfl, written, size ▸ nonempty, size.symm, toNat_value_here⟩

/-- A computation that first looks at the state. -/
theorem get {f : Assembler → Asm Unit} (h : WritesAsLogged target pos s (f s)) :
    WritesAsLogged target pos s (MonadState.get >>= f) := h

theorem branch (op : UInt8) : WritesAsLogged target pos s (Asm.branch op target pos) := by
  refine .get (.reach (two_le_longForm s.options op) fun r t => ?_)
  cases r with
  | short k => exact lengthens_emitShort t op k
  | far k =>
    -- the error is held until the end of the pass, and the bytes are those of a short branch
    exact lengthens_longForm (lengthens_emitShort (t.recordProvisional _) op 0)
  | unknown => exact lengthens_longForm (lengthens_emitShort t op 0)

theorem branchIf (c : Condition) : WritesAsLogged target pos s (Asm.branchIf c target pos) := by
  refine .reach (by decide) fun r t => ?_
  cases r with
  | short k => exact lengthens_emitShort t c.opcode k
  | far | unknown => exact lengthens_emitAround t c.opcode target pos

theorem jump (asks : s.cpu.hasBranchAlways = true) : WritesAsLogged target pos s (Asm.jump target pos) := by
  refine .get ?_
  rw [if_pos asks]
  refine .reach (by decide) fun r t => ?_
  cases r with
  | short k => exact lengthens_emitShort t Opcode.branchAlways k
  | far | unknown => exact lengthens_emitJump t target pos

end WritesAsLogged

/-- Without a branch that is always taken, the jump of a block is an absolute one, and the log is left. -/
theorem lengthens_jump (never : s.cpu.hasBranchAlways = false) : Lengthens 3 s (Asm.jump target pos) := by
  have direct : Asm.jump target pos s = Asm.emitJump target pos s := by
    show (if s.cpu.hasBranchAlways = true then _ else Asm.emitJump target pos) s = _
    rw [never]
    rfl
  obtain ⟨u, bs, run, rest⟩ := lengthens_emitJump s target pos
  exact ⟨u, bs, direct.trans run, rest⟩

/-- Whenever it is asked whether a branch reaches and that is decided, the entry that the log gets has the offset and the
number of the bytes written then. It is not asked only for a jump, on a processor that has no short one. -/
theorem branches_tally (x : Transfer) (target : Address) (pos : Position) (s : Assembler) :
    (x = .jump ∧ s.cpu.hasBranchAlways = false ∧ Lengthens 3 s (x.write target pos))
      ∨ WritesAsLogged target pos s (x.write target pos) := by
  cases x with
  | branch op => exact .inr (.branch op)
  | branchIf c => exact .inr (.branchIf c)
  | jump =>
    cases asks : s.cpu.hasBranchAlways with
    | true => exact .inr (.jump asks)
    | false => exact .inl ⟨rfl, rfl, lengthens_jump asks⟩

/-- A conditional branch to a place not known yet is logged with the five bytes that it takes. -/
theorem branches_tally_unknown_target : ∃ u entry,
    (Transfer.branch 0xd0).write .undefined ⟨0, 1, 1⟩ (new .mos6502 {} {}) = .ok () u
      ∧ u.reachLog = #[entry] ∧ entry.length = 5 ∧ entry.here = 0
      ∧ u.segments.code.bytes = #[0xf0, 3, Opcode.jump, 0, 0] := by
  obtain ⟨jump, -⟩ | ⟨long, next, asks, tallies⟩ :=
    branches_tally (.branch 0xd0) .undefined ⟨0, 1, 1⟩ (new .mos6502 {} {})
  · cases jump
  · obtain ⟨u, entry, bs, run, tallies⟩ := tallies .unknown _ rfl
    have run := asks.trans run
    have bytes : u.segments.code.bytes = #[0xf0, 3, Opcode.jump, 0, 0] := by
      cases run
      rfl
    have added : u.segments.code.bytes = #[] ++ bs := congrArg (·.code.bytes) tallies.written
    rw [bytes, Array.empty_append] at added
    have here : entry.here.toNat = 0 := tallies.place (by decide)
    refine ⟨u, entry, run, tallies.kept.trans tallies.logged, ?_, UInt16.toNat_inj.1 here, bytes⟩
    rw [tallies.length, ← added]
    rfl

end Assembler

end Asm65
