import Asm65.Address.Arithmetic
import Asm65.Token.Stream

/-!
# Expressions

An expression is evaluated as it is read, by climbing the precedence of its operators. It is read from any
surroundings that give tokens, values of names and the current location; a scope with fixed values is one,
the assembler another. What it computes with is open too: the assembler's values are addresses. An error in a
sub-expression stops the reading where it stands.
-/

namespace Asm65
set_option autoImplicit false

/-- What expressions compute with: the value of a number, and operations that may refuse their operands. -/
class Arithmetic (α : Type) where
  constant : UInt16 → α
  binary : Operator → α → α → Except Cause α
  negate : α → Except Cause α
  complement : α → Except Cause α
  /-- A byte of a value. -/
  select : Part → α → Except Cause α

instance : Arithmetic Address where
  constant := Address.constant
  binary := Address.binary
  negate := Address.negate
  complement := Address.complement
  select := Address.select

/-- What reading an expression asks of its surroundings. -/
class Operands (σ : Type) (α : outParam Type) where
  next : EStateM Error σ Token
  unread : Token → σ → σ
  /-- The value of a name. -/
  resolve : String → Position → EStateM Error σ α
  /-- What `*` stands for. -/
  location : σ → α
  /-- At least the number of tokens left. -/
  budget : σ → Nat

namespace Expression
variable {σ α : Type} [Arithmetic α] [Operands σ α]

/-- Puts a token back. -/
def unread (t : Token) : EStateM Error σ Unit := modify (Operands.unread t)

/-- The result of an operation, its error reported at `pos`. -/
def lift (pos : Position) : Except Cause α → EStateM Error σ α
  | .ok a => pure a
  | .error cause => throw (.at_ cause pos)

/-- Reports errors that have no position at `pos`. -/
def locating (pos : Position) (x : EStateM Error σ α) : EStateM Error σ α := fun s =>
  match x s with
  | .ok a s => .ok a s
  | .error e s => .error (e.located pos) s

/-- Fails at a token, which stays to be read. -/
def refuse {β : Type} (t : Token) (cause : Cause) : EStateM Error σ β := do
  unread t
  throw (.at_ cause t.pos)

/-- Reads the given punctuation. -/
def expect (p : Punct) : EStateM Error σ Unit := do
  let t ← Operands.next
  if t.isPunct p then return else refuse t (.punctExpected p t.lexeme)

/-- Reads a comma, if one follows. -/
def comma : EStateM Error σ Bool := do
  let t ← Operands.next
  if t.isPunct .comma then return true
  unread t
  return false

/-- A binary operator and how tightly it binds. -/
def operator? : Lexeme → Option (Operator × Nat)
  | .punct .pipe => some (.or, 1)
  | .punct .caret => some (.xor, 2)
  | .punct .amp => some (.and, 3)
  | .punct .shl => some (.shl, 4)
  | .punct .shr => some (.shr, 4)
  | .punct .plus => some (.add, 5)
  | .punct .minus => some (.sub, 5)
  | .punct .star => some (.mul, 6)
  | .punct .slash => some (.div, 6)
  | .punct .percent => some (.mod, 6)
  | _ => none

/-- Fails for want of an expression at the next token. -/
def missing : EStateM Error σ α := do
  let t ← Operands.next
  refuse t (.expressionExpected t.lexeme)

mutual

/-- An operand and the operators after it that bind at least as tightly as `least`. The number bounds the
depth of the reading. -/
def climb (least : Nat) : Nat → EStateM Error σ α
  | 0 => missing
  | n + 1 => do
    let left ← unary n
    climbFrom left least n

/-- Goes on from an operand that is already evaluated. -/
def climbFrom (left : α) (least : Nat) : Nat → EStateM Error σ α
  | 0 => return left
  | n + 1 => do
    let t ← Operands.next
    match operator? t.lexeme with
    | some (op, precedence) =>
      if least ≤ precedence then
        let right ← climb (precedence + 1) n
        let value ← lift t.pos (Arithmetic.binary op left right)
        climbFrom value least n
      else
        unread t
        return left
    | none =>
      unread t
      return left

/-- Signs, complement and byte selection, then a primary. -/
def unary : Nat → EStateM Error σ α
  | 0 => missing
  | n + 1 => do
    let t ← Operands.next
    match t.lexeme with
    | .punct .minus => lift t.pos (Arithmetic.negate (← unary n))
    | .punct .tilde => lift t.pos (Arithmetic.complement (← unary n))
    | .punct .less => lift t.pos (Arithmetic.select .low (← unary n))
    | .punct .greater => lift t.pos (Arithmetic.select .high (← unary n))
    | .punct .plus => locating t.pos (unary n)
    | _ =>
      unread t
      primary n

/-- A number, a name, the location, or an expression in parentheses or brackets. -/
def primary : Nat → EStateM Error σ α
  | 0 => missing
  | n + 1 => do
    let t ← Operands.next
    match t.lexeme with
    | .number v => return Arithmetic.constant (UInt16.ofNat v)
    | .identifier name => Operands.resolve name t.pos
    | .punct .star => return Operands.location (← get)
    | .punct .lparen =>
      let v ← climb 1 n
      expect .rparen
      return v
    | .punct .lbracket =>
      let v ← climb 1 n
      expect .rbracket
      return v
    | _ => refuse t (.expressionExpected t.lexeme)

end

/-- A depth that no expression within `tokens` tokens exceeds. -/
def depthFor (tokens : Nat) : Nat := 4 * tokens + 8

/-- Reads an expression whose operators bind at least as tightly as `least`. -/
def atLeast (least : Nat) : EStateM Error σ α := do
  climb least (depthFor (Operands.budget (← get)))

/-- Reads the operators after an operand that is already evaluated. -/
def goOn (left : α) (least : Nat) : EStateM Error σ α := do
  climbFrom left least (depthFor (Operands.budget (← get)))

/-- Reads a whole expression. -/
def read : EStateM Error σ α := atLeast 1

end Expression

/-- Surroundings with fixed values for names and for the location. -/
structure Scope (α : Type) where
  tokens : TokenStream
  names : String → α
  location : α

namespace Scope
variable {α : Type}

def nextToken : EStateM Error (Scope α) Token := fun s =>
  match s.tokens.next with
  | (.ok t, tokens) => .ok t { s with tokens }
  | (.error e, tokens) => .error e { s with tokens }

instance : Operands (Scope α) α where
  next := nextToken
  unread t s := { s with tokens := s.tokens.unread t }
  resolve name _ := fun s => .ok (s.names name) s
  location s := s.location
  budget s := s.tokens.budget

end Scope

end Asm65
