import Asm65.Assembly.Directive
import Asm65.Assembly.Instruction
import Asm65.Assembly.Structured

/-!
# Statements

A statement is a line: labels, then a directive, an instruction or the definition of a name. Its end is read
with it.
-/

namespace Asm65.Asm
set_option autoImplicit false

/-- Switches to another space. -/
def switchTo (s : Space) : Asm Unit := modify fun a => { a with current := s }

/-- Work that the end of the statement must follow. -/
def thenEnd (work : Asm Unit) : Asm Flow := do
  work
  endOfStatement

/-- A statement that starts with a keyword. -/
def directive (k : Keyword) (pos : Position) : Asm Flow :=
  match k with
  | .codeSpace => thenEnd (switchTo .code)
  | .dataSpace => thenEnd (switchTo .data)
  | .zeroPageSpace => thenEnd (switchTo .zeroPage)
  | .bytes => thenEnd defineBytes
  | .words => thenEnd defineWords
  | .reserve => thenEnd (reserve pos)
  | .declarePublic => thenEnd (declare true)
  | .declareExternal => thenEnd (declare false)
  | .includeFile => includeFile pos
  | .endSource => do
    let _ ← endOfStatement
    return .stop
  | .ifBlock => thenEnd (beginIf pos)
  | .elseIf => thenEnd (elseIf pos)
  | .elsePart => thenEnd (elsePart pos)
  | .endIf => thenEnd (endIf pos)
  | .doBlock => thenEnd (beginDo pos)
  | .whileTest => whileTest pos
  | .loopEnd => thenEnd (endLoop pos)
  | .equate => fail (.unexpectedToken (.keyword k)) pos

/-- Gives a name the address of the next byte. -/
def placeName (name : String) (pos : Position) : Asm Unit := do
  defineName name (← get).here pos
  modify fun s => s.log (.placed name s.current (s.segment s.current).size)

/-- Gives a name the value of an expression. -/
def equate (name : String) (pos : Position) : Asm Unit := do
  let tokens := (← get).tokens
  let value ← expression
  defineName name value pos
  modify fun s => s.log (.equated name tokens s.current (s.segment s.current).size value)

/-- A statement that starts with the given token; `n` bounds the number of labels. -/
def statementWithin : Nat → Token → Asm Flow
  | 0, t => fail (.unexpectedToken t.lexeme) t.pos
  | n + 1, t => do
    match t.lexeme with
    | .keyword k => directive k t.pos
    | .identifier name =>
      let after ← nextToken
      if after.isPunct .colon then
        placeName name t.pos
        let t ← nextToken
        if t.endsStatement then
          unread t
          endOfStatement
        else statementWithin n t
      else if after.isKeyword .equate || after.isPunct .equals then thenEnd (equate name t.pos)
      else
        unread after
        match (← get).cpu.mnemonic? name with
        | some m => thenEnd (instruction m t.pos)
        | none => fail (.unknownInstruction name) t.pos
    | lexeme => fail (.unexpectedToken lexeme) t.pos

/-- A statement that starts with the given token. -/
def statement (t : Token) : Asm Flow := do statementWithin (← budget) t

end Asm65.Asm
