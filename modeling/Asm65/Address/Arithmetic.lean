import Asm65.Error

/-!
# Arithmetic on addresses

Once the final place of a module is unknown, few combinations make sense: constants combine freely, a
relocatable or external address may be offset by a constant, and two addresses of one space may be
subtracted. An undefined operand stands for any value that would make the combination legal.
-/

namespace Asm65.Address
set_option autoImplicit false

/-- Sixteen-bit arithmetic: results wrap, and a shift by sixteen or more leaves nothing. -/
def constOp (op : Operator) (l r : UInt16) : Except Cause UInt16 :=
  match op with
  | .add => .ok (l + r)
  | .sub => .ok (l - r)
  | .mul => .ok (l * r)
  | .div => if r = 0 then .error .divisionByZero else .ok (l / r)
  | .mod => if r = 0 then .error .divisionByZero else .ok (l % r)
  | .and => .ok (l &&& r)
  | .or => .ok (l ||| r)
  | .xor => .ok (l ^^^ r)
  | .shl => .ok (if r < 16 then l <<< r else 0)
  | .shr => .ok (if r < 16 then l >>> r else 0)

/-- Whether `op` may combine an undefined value with one of this origin. -/
def combinesUndefined (op : Operator) : Origin → Bool
  | .absolute | .undefined => true
  | _ => op == .add || op == .sub

/-- Combines two addresses, if the result is known up to where the spaces end up. -/
def binary (op : Operator) (l r : Address) : Except Cause Address :=
  if l.isConst && r.isConst then constant <$> constOp op l.value r.value
  else if l.part != .word || r.part != .word then .error (.illegalOperation op l r)
  else
    match l.origin, op, r.origin with
    | .undefined, op, k =>
      if combinesUndefined op k then .ok undefined else .error (.illegalOperation op l r)
    | k, op, .undefined =>
      if combinesUndefined op k then .ok undefined else .error (.illegalOperation op l r)
    | k, .add, .absolute => .ok (of k (l.value + r.value))
    | k, .sub, .absolute => .ok (of k (l.value - r.value))
    | .absolute, .add, k => .ok (of k (l.value + r.value))
    | .space s, .sub, .space t =>
      if s = t then .ok (constant (l.value - r.value)) else .error (.illegalOperation op l r)
    | _, _, _ => .error (.illegalOperation op l r)

/-- An operation that only constants have, with the cause for refusing it elsewhere. -/
def onConstant (f : UInt16 → UInt16) (refused : Cause) (a : Address) : Except Cause Address :=
  match a.origin with
  | .absolute => .ok (constant (f a.value))
  | .undefined => .ok a
  | _ => .error refused

def negate (a : Address) : Except Cause Address := a.onConstant (- ·) .cannotNegate

def complement (a : Address) : Except Cause Address := a.onConstant (~~~ ·) .cannotComplement

/-- A byte of an address. Constants are split at once; other addresses keep their value, and the final
value is split. -/
def select (part : Part) (a : Address) : Except Cause Address :=
  if a.part != .word then .error .byteOfByte
  else if a.isConst then .ok (constant (part.apply a.value))
  else .ok { a with part := part }

/-- The low byte. -/
def low (a : Address) : Except Cause Address := a.select .low

/-- The high byte. -/
def high (a : Address) : Except Cause Address := a.select .high

/-- Whether an operand fits the one-byte zero page forms. -/
def isByteSized (a : Address) : Bool :=
  a.part != .word || a.origin == .space .zeroPage || (a.isConst && a.value < 0x100)

end Asm65.Address
