import Asm65.Assembly.Emit

/-!
# Directives

Data, storage, declarations and inclusion.
-/

namespace Asm65.Asm
set_option autoImplicit false

/-- Reads the next token's position and leaves the token. -/
def nextPosition : Asm Position := do
  let t ← nextToken
  unread t
  return t.pos

/-- Strings and one-byte operands with commas between them. -/
def bytesWithin : Nat → Asm Unit
  | 0 => pure ()
  | n + 1 => do
    let t ← nextToken
    match t.lexeme with
    | .string s => modify (·.emitAll s.toUTF8.data)
    | _ =>
      unread t
      let value ← expression
      modify (·.emitByteOperand t.pos value)
    if ← comma then bytesWithin n

/-- Words with commas between them. -/
def wordsWithin : Nat → Asm Unit
  | 0 => pure ()
  | n + 1 => do
    let t ← nextToken
    unread t
    let value ← expression
    modify (·.emitWord value)
    if ← comma then wordsWithin n

def defineBytes : Asm Unit := do bytesWithin (← budget)

def defineWords : Asm Unit := do wordsWithin (← budget)

/-- Storage of a size known before it, filled with zeros or a given byte. -/
def reserve (pos : Position) : Asm Unit := do
  let sizePos ← nextPosition
  let size ← expression
  let count ← match size.origin with
    | .absolute => pure size.value.toNat
    | .undefined => fail .sizeUndefined sizePos
    | _ => fail (.sizeNotConstant size) pos
  let mut fill : UInt8 := 0
  if ← comma then
    let value ← expression
    if !value.isConst || !value.fitsByte then fail .fillNotByte pos
    fill := value.value.toUInt8
  modify (·.emitAll (Array.replicate count fill))

/-- Names declared as public or external, with commas between them. An external name is defined by its
declaration. -/
def declareWithin (isPublic : Bool) : Nat → Asm Unit
  | 0 => pure ()
  | n + 1 => do
    let t ← nextToken
    match t.lexeme with
    | .identifier name =>
      let id ← intern name t.pos
      if isPublic then modify fun s => { s with symbols := s.symbols.declarePublic id name }
      else defineId id name (.external id) t.pos
      modify (·.log (.declared name isPublic))
    | lexeme => fail (.symbolNameExpected lexeme) t.pos
    if ← comma then declareWithin isPublic n

def declare (isPublic : Bool) : Asm Unit := do declareWithin isPublic (← budget)

/-- Loads a file and goes on reading from it. -/
def openInclude (name : String) (pos : Position) : Asm Unit := fun s =>
  match s.load (s.files.resolveInclude pos.file name) with
  | .error cause => .error (.at_ cause pos) s
  | .ok (id, s) =>
    match s.tokens.pushFile s.files id pos with
    | .ok tokens => .ok () { s with tokens }
    | .error e => .error e s

/-- Reads the name of a file and the end of the statement, then goes on with the file. -/
def includeFile (pos : Position) : Asm Flow := do
  let t ← nextToken
  match t.lexeme with
  | .string name =>
    let last ← nextToken
    if !last.endsStatement then fail (.tokenAfterInclude last.lexeme) last.pos
    openInclude name pos
    return .goOn
  | lexeme => fail (.fileNameExpected lexeme) t.pos

end Asm65.Asm
