import Asm65.Assembly.Emit

/-!
# Branches

A branch is short if its target is within reach of a byte. The address of a target further on is the one
of the pass before; it is corrected by how much the code in front of the branch, and the branch itself,
have shrunk since.
-/

namespace Asm65
set_option autoImplicit false

namespace Assembler

/-- Whether an offset fits a signed byte. -/
def inReach (offset : Int) : Bool := -128 ≤ offset && offset ≤ 127

/-- The byte that encodes an offset. -/
def offsetByte (offset : Int) : UInt8 := UInt8.ofNat (offset % 256).toNat

/-- From the end of a branch of `length` bytes at `here` to its target. -/
def distance (here target : UInt16) (length : Nat) : Int := (target.toNat : Int) - (here.toNat + length)

/-- The entry of a log for the branch with this number, if it stands at the same place of the source. -/
def logged? (log : Array ReachEntry) (index : Nat) (pos : Position) : Option ReachEntry :=
  (log[index]?).filter (·.pos == pos)

/-- The offset of a short form of `short` bytes. For a target further on it is corrected by what the last pass
logged about the branch. -/
def corrected (last : Option ReachEntry) (here target : UInt16) (short : Nat) : Int :=
  let actual := distance here target short
  if here < target then
    match last with
    | some last =>
      let shift : Int := (last.here.toNat : Int) - here.toNat
      let shrink : Int := (last.length : Int) - short
      actual - shift - shrink
    | none => actual
  else actual

/-- Decides about the branch with this number in the pass: whether the short form reaches, and how long the
branch becomes. -/
def estimate (s : Assembler) (pos : Position) (target : Address) (short long : Nat) (index : Nat) :
    Except Error Reach × Nat :=
  if target.isUndefined then (.ok .unknown, long)
  else if target.origin != s.here.origin || target.part != .word then
    (.error (.at_ (.branchOutOfSpace target s.current) pos), short)
  else
    let offset := corrected (logged? s.lastReachLog index pos) s.here.value target.value short
    if inReach offset then (.ok (.short offset), short)
    else (.ok (.far (distance s.here.value target.value short)), long)

/-- Whether a short branch of `length` bytes from here reaches a target that is already laid out. -/
def reachesBack (s : Assembler) (target : Address) (length : Nat) : Bool :=
  let here := s.here
  target.origin == here.origin && target.part == .word && target.value ≤ here.value
    && inReach (distance here.value target.value length)

end Assembler

namespace Asm

/-- Decides whether a branch from here with a short form of `short` bytes reaches its target. `long` is how
long it becomes otherwise. -/
def reach (pos : Position) (target : Address) (short long : Nat) : Asm Reach := fun s =>
  let here := s.here
  let index := s.reachLog.size
  let (outcome, length) := s.estimate pos target short long index
  let s := { s with reachLog := s.reachLog.push ⟨pos, here.value, length⟩ }
  match outcome with
  | .ok r => .ok r (s.log (.branch index pos here target r))
  | .error e => .error e s

/-- The short form: an opcode and an offset. -/
def emitShort (op : UInt8) (offset : Int) : Asm Unit :=
  modify fun s => (s.emit op).emit (Assembler.offsetByte offset)

/-- An absolute jump. -/
def emitJump (target : Address) (pos : Position) : Asm Unit :=
  modify fun s => (s.emit Opcode.jump).emitPointer pos target

/-- The opposite branch around an absolute jump. -/
def emitAround (op : UInt8) (target : Address) (pos : Position) : Asm Unit := do
  modify fun s => (s.emit (Opcode.inverted op)).emit 3
  emitJump target pos

/-- A branch written in the source. With long branches switched off, a target out of reach is an error if it
is still out of reach in the last pass. -/
def branch (op : UInt8) (target : Address) (pos : Position) : Asm Unit := do
  let long := (← get).options.longBranches
  let longLength := if !long then 2 else if op == Opcode.branchAlways then 3 else 5
  match ← reach pos target 2 longLength with
  | .short offset => emitShort op offset
  | other =>
    if !long then
      match other with
      | .far offset => modify (·.recordProvisional (.at_ (.branchOutOfRange offset) pos))
      | _ => pure ()
      emitShort op 0
    else if op == Opcode.branchAlways then emitJump target pos
    else emitAround op target pos

/-- A branch of a structured block, taken if the condition holds. -/
def branchIf (c : Condition) (target : Address) (pos : Position) : Asm Unit := do
  match ← reach pos target 2 5 with
  | .short offset => emitShort c.opcode offset
  | _ => emitAround c.opcode target pos

/-- A jump of a structured block, short where the processor can. -/
def jump (target : Address) (pos : Position) : Asm Unit := do
  if (← get).cpu.hasBranchAlways then
    match ← reach pos target 2 3 with
    | .short offset => emitShort Opcode.branchAlways offset
    | _ => emitJump target pos
  else emitJump target pos

end Asm

end Asm65
