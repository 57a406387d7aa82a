import Asm65.Proofs.Interface
import Asm65.Proofs.RepeatedBlock

/-!
# A pass that changes nothing is repeated

A pass that has no errors, moves no symbol, decides as the pass before it and loads no file is followed by a pass with
the same result.
-/

namespace Asm65
set_option autoImplicit false

namespace Assembler

open BlockStack (Nested)

variable {f s t : Assembler} {E : SymbolId → Prop} {symbols : SymbolTable} {flow : Flow}

/-! ### Statements -/

theorem Repeats.thenEnd {work : Asm Unit} (h : Repeats f s.Erasable s work) : Repeats f s.Erasable s (Asm.thenEnd work) :=
  h.bind fun _ _ _ => .of echoes_endOfStatement

/-- Each directive is repeated in the next pass. -/
theorem repeats_directive (done : f.Done) (nested : Nested s.blocks s.nextLabel symbols) (k : Keyword) (pos : Position) :
    Repeats f s.Erasable s (Asm.directive k pos) := by
  have plain {work : Asm Unit} (h : Echoes f work) : Repeats f s.Erasable s (Asm.thenEnd work) := .of (echoes_thenEnd h)
  cases k with
  | codeSpace => exact plain (echoes_switchTo .code)
  | dataSpace => exact plain (echoes_switchTo .data)
  | zeroPageSpace => exact plain (echoes_switchTo .zeroPage)
  | bytes => exact plain (.bind echoes_budget fun n => echoes_bytesWithin done n)
  | words => exact plain (.bind echoes_budget fun n => echoes_wordsWithin done n)
  | reserve => exact plain (echoes_reserve done pos)
  | declarePublic => exact plain (.bind echoes_budget fun n => echoes_declareWithin done true n)
  | declareExternal => exact plain (.bind echoes_budget fun n => echoes_declareWithin done false n)
  | includeFile => exact .of (echoes_includeFile pos)
  | endSource => exact .of (.bind echoes_endOfStatement fun _ => .pure _)
  | ifBlock => exact (repeats_beginIf nested done).thenEnd
  | elseIf => exact (repeats_elseIf nested done).thenEnd
  | elsePart => exact (repeats_elsePart nested done).thenEnd
  | endIf => exact (repeats_endIf done nested).thenEnd
  | doBlock => exact (repeats_beginDo done nested).thenEnd
  | whileTest => exact repeats_whileTest done nested
  | loopEnd => exact (repeats_endLoop done nested).thenEnd
  | equate => exact .of (.fail _ _)

/-- A statement is repeated in the next pass, its labels first. -/
theorem repeats_statementWithin (done : f.Done) (nested : Nested s.blocks s.nextLabel symbols) (n : Nat) (token : Token) :
    Repeats f s.Erasable s (Asm.statementWithin n token) := by
  induction n generalizing s token with
  | zero => exact .of (.fail _ _)
  | succ n ih =>
    rw [Asm.statementWithin]
    split
    · exact repeats_directive done nested _ _
    · rename_i name _
      refine .after echoes_nextToken fun after s₁ read => ?_
      split
      · refine .after (echoes_placeName done name token.pos) fun _ s₂ placed => ?_
        refine .after echoes_nextToken fun next s₃ read' => ?_
        split
        · exact .of (.bind (echoes_unread next) fun _ => echoes_endOfStatement)
        · exact ih (((read.trans placed).trans read').nested nested) next
      · split
        · exact .of (echoes_thenEnd (echoes_equate done name token.pos))
        · refine .after (echoes_unread after) fun _ s₂ _ => .get rfl ?_
          split
          · exact .of (echoes_thenEnd (echoes_instruction done _ token.pos))
          · exact .of (.fail _ _)
    · exact .of (.fail _ _)

theorem repeats_statement (done : f.Done) (nested : Nested s.blocks s.nextLabel symbols) (token : Token) :
    Repeats f s.Erasable s (Asm.statement token) :=
  .after echoes_budget fun n _ still => repeats_statementWithin done (still.nested nested) n token

/-! ### Lines -/

/-- A line is repeated. -/
theorem Line.echo (done : f.Done) (nested : Nested s.blocks s.nextLabel symbols) (line : Line s flow t)
    (leads : Leads f t.Erasable t) :
    Leads f s.Erasable s ∧ (s.files = f.files → Line (ahead f s) flow (ahead f t) ∧ t.files = f.files) := by
  cases line with
  | ends read line =>
    have echo := Repeats.of (s := s) echoes_nextToken read leads
    refine ⟨echo.leads, fun files => ?_⟩
    obtain ⟨again, files⟩ := echo.again files
    exact ⟨.ends again line, files⟩
  | @statement token u v flow read line run =>
    have still := (echoes_nextToken (f := f)).sameBlocks read
    have later : Leads f v.Erasable v := { leads with }
    have echo := repeats_statement done (s := { u with start := u.here }) (still.nested nested) token run later
    have before : Leads f u.Erasable u := { echo.leads with }
    have first := Repeats.of echoes_nextToken read before
    refine ⟨first.leads, fun files => ?_⟩
    obtain ⟨again, files⟩ := first.again files
    obtain ⟨again', files⟩ := echo.again files
    exact ⟨.statement again line again', files⟩

end Assembler

end Asm65
