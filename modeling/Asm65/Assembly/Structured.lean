import Asm65.Assembly.Branch

/-!
# Structured blocks

`IF`, `ELSEIF`, `ELSE` and `ENDIF`, and `DO`, `WHILE` and `WEND`, compiled to branches between labels that
the assembler numbers itself. A test that stands at the very end of a loop becomes one branch back.
-/

namespace Asm65.Asm
set_option autoImplicit false

/-- Hands out a label. -/
def newLabel : Asm SymbolId := fun s =>
  if s.nextLabel < 0x10000 then
    let id := UInt16.ofNat s.nextLabel
    .ok id (Assembler.log { s with nextLabel := s.nextLabel + 1 } (.label id))
  else .error ⟨.tooManyBlocks, none⟩ s

/-- Gives a label the address of the next byte. -/
def placeLabel (id : SymbolId) (pos : Position) : Asm Unit := do
  defineId id "" (← get).here pos

/-- Gives labels the address of the next byte. -/
def placeLabels (pos : Position) : List SymbolId → Asm Unit
  | [] => pure ()
  | id :: rest => do
    placeLabel id pos
    placeLabels pos rest

/-- The address of a label. -/
def labelAddress (id : SymbolId) : Asm Address := return (← get).symbols.address id

def setBlocks (blocks : BlockStack) : Asm Unit := modify fun s => { s with blocks }

/-- Opens a block. -/
def openBlock (b : Block) (pos : Position) : Asm Unit := modify fun s => { s with blocks := (b, pos) :: s.blocks }

/-- Replaces the innermost block. -/
def setTop (b : Block) : Asm Unit := modify fun s => { s with blocks := BlockStack.setTop s.blocks b }

/-- Reads the name of a condition. -/
def condition : Asm Condition := do
  let t ← nextToken
  match t.identifier?.bind Condition.ofWord? with
  | some c => return c
  | none => fail (.conditionExpected t.lexeme) t.pos

/-- Closes blocks from the innermost outwards until one of the wanted kind, reporting all others. -/
def closeFrom (pos : Position) (wanted : Opener) (keyword : String) : BlockStack → Asm Block
  | [] => fail (.withoutOpener keyword wanted.name) pos
  | (b, _) :: rest => do
    setBlocks rest
    if b.opener = wanted then return b
    else
      modify (·.record (.at_ (.blockNotClosedBefore b.opener.name keyword) pos))
      placeLabels pos b.pending
      closeFrom pos wanted keyword rest

/-- Closes the innermost block of a kind and the blocks inside it. -/
def closeBlock (pos : Position) (wanted : Opener) (keyword : String) : Asm Block := do
  let blocks := (← get).blocks
  if BlockStack.has blocks wanted then closeFrom pos wanted keyword blocks
  else fail (.withoutOpener keyword wanted.name) pos

def beginIf (pos : Position) : Asm Unit := do
  let c ← condition
  let elseId ← newLabel
  let endId ← newLabel
  openBlock (.cond (some elseId) endId) pos
  branchIf c.invert (← labelAddress elseId) pos

def elseIf (pos : Position) : Asm Unit := do
  let c ← condition
  match BlockStack.top? (← get).blocks with
  | some (.cond (some elseId) endId) =>
    let nextElse ← newLabel
    setTop (.cond (some nextElse) endId)
    jump (← labelAddress endId) pos
    placeLabel elseId pos
    branchIf c.invert (← labelAddress nextElse) pos
  | some (.cond none _) => fail .elseIfAfterElse pos
  | _ => fail (.withoutOpener "ELSEIF" "IF") pos

def elsePart (pos : Position) : Asm Unit := do
  match BlockStack.top? (← get).blocks with
  | some (.cond (some elseId) endId) =>
    setTop (.cond none endId)
    jump (← labelAddress endId) pos
    placeLabel elseId pos
  | some (.cond none _) => fail .secondElse pos
  | _ => fail (.withoutOpener "ELSE" "IF") pos

def endIf (pos : Position) : Asm Unit := do
  let b ← closeBlock pos .ifBlock "ENDIF"
  placeLabels pos b.pending

def beginDo (pos : Position) : Asm Unit := do
  let beginId ← newLabel
  let repeatId ← newLabel
  let endId ← newLabel
  placeLabel repeatId pos
  openBlock (.loop beginId repeatId endId false) pos

/-- Reads past the ends of empty lines. -/
def skipEmptyLines : Nat → Asm Unit
  | 0 => pure ()
  | n + 1 => do
    let t ← nextToken
    if t.lexeme = .endOfLine then skipEmptyLines n
    else
      unread t
      modify fun s => { s with lineEnded := true }

/-- The next token, which stays to be read. -/
def peekToken : Asm Token := fun s =>
  match s.tokens.peek with
  | (.ok t, tokens) => .ok t { s with tokens }
  | (.error e, tokens) => .error e { s with tokens }

/-- Closes the innermost loop, which ends with its test, and gives up the label of its end. -/
def dropEnd (endId : SymbolId) : Asm Unit := modify fun s =>
  Assembler.log { s with symbols := s.symbols.erase endId, blocks := s.blocks.tail } (.dropped endId)

/-- The test of a loop. If the loop ends right after it and its top is within reach, one branch back does for
test and end. -/
def whileTest (pos : Position) : Asm Flow := do
  let c ← condition
  match BlockStack.top? (← get).blocks with
  | some (.loop beginId repeatId endId tested) =>
    if tested then fail .secondWhile pos
    setTop (.loop beginId repeatId endId true)
    let _ ← endOfStatement
    skipEmptyLines (← budget)
    let top ← labelAddress repeatId
    if (← peekToken).isKeyword .loopEnd && (← get).reachesBack top 2 then
      let _ ← nextToken
      branchIf c top pos
      placeLabel beginId pos
      dropEnd endId
      endOfStatement
    else
      branchIf c.invert (← labelAddress endId) pos
      placeLabel beginId pos
      return .goOn
  | _ => fail (.withoutOpener "WHILE" "DO") pos

def endLoop (pos : Position) : Asm Unit := do
  let b ← closeBlock pos .doBlock "WEND"
  match b with
  | .loop _ repeatId _ _ => jump (← labelAddress repeatId) pos
  | .cond .. => pure ()
  placeLabels pos b.pending

end Asm65.Asm
