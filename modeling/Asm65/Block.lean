import Asm65.Address.Basic
import Asm65.Position

/-!
# Open blocks

An open IF or DO block holds the labels that stand for its jump targets; those still pending get their
address when the block is closed. Blocks are kept innermost first, with the position that opened them.
-/

namespace Asm65
set_option autoImplicit false

/-- The two kinds of structured blocks, by the word that opens them. -/
inductive Opener where
  | ifBlock
  | doBlock
  deriving DecidableEq

namespace Opener

def name : Opener → String
  | .ifBlock => "IF"
  | .doBlock => "DO"

end Opener

inductive Block where
  /-- `elseId` is the target of the failed condition; none once the ELSE has been seen. -/
  | cond (elseId : Option SymbolId) (endId : SymbolId)
  /-- `beginId` is the body after the test, `repeatId` the loop's top; `tested` once the WHILE has been seen. -/
  | loop (beginId repeatId endId : SymbolId) (tested : Bool)
  deriving DecidableEq

namespace Block

def opener : Block → Opener
  | .cond .. => .ifBlock
  | .loop .. => .doBlock

/-- The labels that still want an address if the block is closed here. -/
def pending : Block → List SymbolId
  | .cond elseId endId => elseId.toList ++ [endId]
  | .loop beginId _ endId tested => if tested then [endId] else [beginId, endId]

end Block

/-- Open blocks, innermost first, each with the position of the statement that opened it. -/
abbrev BlockStack := List (Block × Position)

namespace BlockStack

/-- The innermost block. -/
def top? (s : BlockStack) : Option Block := s.head?.map (·.1)

/-- Replaces the innermost block, which keeps its position. -/
def setTop (s : BlockStack) (b : Block) : BlockStack :=
  match s with
  | (_, pos) :: rest => (b, pos) :: rest
  | [] => []

/-- Whether a block of this kind is open, at whatever depth. -/
def has (s : BlockStack) (o : Opener) : Bool := s.any (·.1.opener == o)

end BlockStack

end Asm65
