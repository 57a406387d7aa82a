import Asm65.Proofs.Lockstep

/-!
# Passes over the same files

Every statement keeps two passes abreast, except for the test of a loop. A test at the end of a loop may in one
pass take the end of the loop with it, which the other pass then reads as a statement of its own.
-/

namespace Asm65
set_option autoImplicit false

namespace Assembler

section Writing

theorem abreast_emitByteOperand (s : Assembler) (pos : Position) (a : Address) :
    Abreast s (s.emitByteOperand pos a) := by
  obtain ⟨use, d, bs, same, -⟩ := s.emitByteOperand_eq pos a
  rw [same]
  exact ⟨rfl, rfl⟩

theorem abreast_emitWord (s : Assembler) (a : Address) : Abreast s (s.emitWord a) := by
  obtain ⟨use, d, bs, same, -⟩ := s.emitWord_eq a
  rw [same]
  exact ⟨rfl, rfl⟩

theorem abreast_emitPointer (s : Assembler) (pos : Position) (a : Address) : Abreast s (s.emitPointer pos a) := by
  unfold emitPointer
  split
  · have zeros := abreast_emitWord ((s.log (.operand s.here a)).record (.at_ (.byteAsPointer a) pos)) (.constant 0)
    exact ⟨zeros.tokens, zeros.given⟩
  · exact abreast_emitWord s a

theorem still_emitOpcode (m : Mnemonic) (mode : Mode) (pos : Position) : Still (Asm.emitOpcode m mode pos) := by
  intro s a t run
  unfold Asm.emitOpcode at run
  split at run <;> cases run
  exact ⟨rfl, rfl⟩

theorem still_emitWith (m : Mnemonic) (mode : Mode) (pos : Position) {write : Assembler → Assembler}
    (h : ∀ s, Abreast s (write s)) : Still (Asm.emitWith m mode pos write) :=
  (still_emitOpcode m mode pos).bind fun _ => .modify h

theorem still_emitWithByte (m : Mnemonic) (mode : Mode) (a : Address) (pos : Position) :
    Still (Asm.emitWithByte m mode a pos) :=
  still_emitWith m mode pos fun s => (abreast_emitByteOperand s pos a).trans ⟨rfl, rfl⟩

theorem still_emitDirect (m : Mnemonic) (a : Address) (index : Index) (pos : Position) :
    Still (Asm.emitDirect m a index pos) := by
  refine .bind .get fun s => ?_
  dsimp only
  split
  · exact still_emitWithByte m _ a pos
  · split
    · exact still_emitWith m _ pos fun s => abreast_emitPointer s pos a
    · exact still_emitWith m _ pos fun s => abreast_emitWord s a

theorem still_reach (pos : Position) (target : Address) (short long : Nat) :
    Still (Asm.reach pos target short long) := by
  intro s r t run
  obtain ⟨length, -, rfl⟩ := exists_of_reach run
  exact ⟨rfl, rfl⟩

theorem still_emitShort (op : UInt8) (k : Int) : Still (Asm.emitShort op k) := .modify fun _ => ⟨rfl, rfl⟩

theorem still_emitJump (target : Address) (pos : Position) : Still (Asm.emitJump target pos) :=
  .modify fun s => .trans (t := s.emit Opcode.jump) ⟨rfl, rfl⟩ (abreast_emitPointer _ pos target)

theorem still_emitAround (op : UInt8) (target : Address) (pos : Position) : Still (Asm.emitAround op target pos) :=
  .bind (.modify fun _ => ⟨rfl, rfl⟩) fun _ => still_emitJump target pos

theorem still_branch (op : UInt8) (target : Address) (pos : Position) : Still (Asm.branch op target pos) := by
  refine .bind .get fun s => .bind (still_reach pos target 2 _) fun r => ?_
  split
  · exact still_emitShort op _
  · split
    · split
      · exact .bind (.modify fun _ => ⟨rfl, rfl⟩) fun _ => still_emitShort op 0
      · exact still_emitShort op 0
    · split
      · exact still_emitJump target pos
      · exact still_emitAround op target pos

theorem still_branchIf (c : Condition) (target : Address) (pos : Position) : Still (Asm.branchIf c target pos) := by
  refine .bind (still_reach pos target 2 5) fun r => ?_
  split
  · exact still_emitShort _ _
  · exact still_emitAround _ target pos

theorem still_jump (target : Address) (pos : Position) : Still (Asm.jump target pos) := by
  refine .bind .get fun s => ?_
  split
  · refine .bind (still_reach pos target 2 3) fun r => ?_
    split
    · exact still_emitShort _ _
    · exact still_emitJump target pos
  · exact still_emitJump target pos

/-- Writing an instruction reads nothing and gives no names, in whatever form. -/
theorem still_encode (m : Mnemonic) (o : Operand Address) (pos : Position) : Still (Asm.encode m o pos) := by
  refine .bind .get fun s => ?_
  have byte (mode : Mode) (a : Address) : Still (Asm.emitWithByte m mode a pos) := still_emitWithByte m mode a pos
  have pointer (mode : Mode) (a : Address) : Still (Asm.emitWithPointer m mode a pos) :=
    still_emitWith m mode pos fun s => abreast_emitPointer s pos a
  dsimp only
  split
  · split
    · exact still_emitOpcode m _ pos
    · split
      · exact still_emitOpcode m _ pos
      · exact .fail _ _
  · split
    · exact still_emitOpcode m _ pos
    · exact .fail _ _
  · exact byte _ _
  · split
    · exact still_branch _ _ pos
    · exact still_emitDirect m _ _ pos
  · exact still_emitDirect m _ _ pos
  · split
    · exact pointer _ _
    · exact byte _ _
  · split
    · exact pointer _ _
    · exact byte _ _
  · exact byte _ _

theorem still_defineId (id : SymbolId) (name : String) (a : Address) (pos : Position) :
    Still (Asm.defineId id name a pos) := by
  intro s u t run
  obtain ⟨-, refused⟩ | ⟨-, accepted⟩ := defineId_eq id name a pos s
  · cases refused.symm.trans run
  · cases accepted.symm.trans run
    exact ⟨rfl, rfl⟩

theorem still_defineName (name : String) (a : Address) (pos : Position) : Still (Asm.defineName name a pos) :=
  (still_intern name pos).bind fun id => still_defineId id name a pos

theorem still_newLabel : Still Asm.newLabel := by
  intro s id t run
  unfold Asm.newLabel at run
  split at run <;> cases run
  exact ⟨rfl, rfl⟩

theorem still_placeLabel (id : SymbolId) (pos : Position) : Still (Asm.placeLabel id pos) :=
  .bind .get fun s => still_defineId id "" s.here pos

theorem still_placeLabels (pos : Position) (labels : List SymbolId) : Still (Asm.placeLabels pos labels) := by
  induction labels with
  | nil => exact .pure ()
  | cons id rest ih => exact (still_placeLabel id pos).bind fun _ => ih

theorem still_labelAddress (id : SymbolId) : Still (Asm.labelAddress id) := .bind .get fun _ => .pure _

theorem still_closeFrom (pos : Position) (wanted : Opener) (keyword : String) (blocks : BlockStack) :
    Still (Asm.closeFrom pos wanted keyword blocks) := by
  induction blocks with
  | nil => exact .fail _ _
  | cons first rest ih =>
    refine .bind (.modify fun _ => ⟨rfl, rfl⟩) fun _ => ?_
    split
    · exact .pure _
    · exact .bind (.modify fun _ => ⟨rfl, rfl⟩) fun _ => (still_placeLabels pos _).bind fun _ => ih

theorem still_closeBlock (pos : Position) (wanted : Opener) (keyword : String) :
    Still (Asm.closeBlock pos wanted keyword) := by
  refine .bind .get fun s => ?_
  dsimp only
  split
  · exact still_closeFrom pos wanted keyword _
  · exact .fail _ _

variable (pos : Position)

theorem still_elsePart : Still (Asm.elsePart pos) := by
  refine .bind .get fun s => ?_
  split
  · refine .bind (.modify fun _ => ⟨rfl, rfl⟩) fun _ => (still_labelAddress _).bind fun a => ?_
    exact (still_jump a pos).bind fun _ => still_placeLabel _ pos
  · exact .fail _ _
  · exact .fail _ _

theorem still_endIf : Still (Asm.endIf pos) :=
  (still_closeBlock pos .ifBlock "ENDIF").bind fun b => still_placeLabels pos b.pending

theorem still_beginDo : Still (Asm.beginDo pos) :=
  still_newLabel.bind fun _ => still_newLabel.bind fun repeatId => still_newLabel.bind fun _ =>
    (still_placeLabel repeatId pos).bind fun _ => .modify fun _ => ⟨rfl, rfl⟩

theorem still_endLoop : Still (Asm.endLoop pos) := by
  refine (still_closeBlock pos .doBlock "WEND").bind fun b => ?_
  cases b with
  | loop beginId repeatId endId tested =>
    exact (still_labelAddress repeatId).bind fun a => (still_jump a pos).bind fun _ => still_placeLabels pos _
  | cond elseId endId => exact (Still.pure ()).bind fun _ => still_placeLabels pos _

end Writing

section Statements

variable (pos : Position)

theorem Still.alike {α : Type} {x : Asm α} (h : Still x) : Alike x x := .of_still h h

theorem alike_instruction (m m' : Mnemonic) : Alike (Asm.instruction m pos) (Asm.instruction m' pos) :=
  alike_operand.bind fun o o' _ => .of_still (still_encode m o pos) (still_encode m' o' pos)

/-- A list goes on after a comma. -/
theorem alike_ifComma {x : Asm Unit} (h : Alike x x) : Alike (do if ← Asm.comma then x) (do if ← Asm.comma then x) := by
  refine .same twin_comma fun more => ?_
  split
  · exact h
  · exact .pure trivial

theorem alike_bytesWithin (n : Nat) : Alike (Asm.bytesWithin n) (Asm.bytesWithin n) := by
  induction n with
  | zero => exact .pure trivial
  | succ n ih =>
    rw [Asm.bytesWithin]
    refine .same twin_nextToken fun t => ?_
    dsimp only
    split
    · exact Twin.bind (Still.alike (.modify fun _ => ⟨rfl, rfl⟩)) fun _ _ _ => alike_ifComma ih
    · refine .same (twin_unread t) fun _ => twin_expression.bind fun a a' _ => ?_
      refine Twin.bind (.of_still (.modify fun s => ?_) (.modify fun s => ?_)) fun _ _ _ => alike_ifComma ih
      · exact abreast_emitByteOperand s t.pos a
      · exact abreast_emitByteOperand s t.pos a'

theorem alike_wordsWithin (n : Nat) : Alike (Asm.wordsWithin n) (Asm.wordsWithin n) := by
  induction n with
  | zero => exact .pure trivial
  | succ n ih =>
    rw [Asm.wordsWithin]
    refine .same twin_nextToken fun t => .same (twin_unread t) fun _ => twin_expression.bind fun a a' _ => ?_
    refine Twin.bind (.of_still (.modify fun s => ?_) (.modify fun s => ?_)) fun _ _ _ => alike_ifComma ih
    · exact abreast_emitWord s a
    · exact abreast_emitWord s a'

/-- Storage takes the same tokens whatever its size. -/
theorem alike_reserve : Alike (Asm.reserve pos) (Asm.reserve pos) := by
  have filled (count count' : Nat) (fill fill' : UInt8) :
      Alike (modify (·.emitAll (Array.replicate count fill))) (modify (·.emitAll (Array.replicate count' fill'))) :=
    .of_still (.modify fun _ => ⟨rfl, rfl⟩) (.modify fun _ => ⟨rfl, rfl⟩)
  refine .same twin_nextPosition fun sizePos => twin_expression.bind fun size size' _ => ?_
  dsimp only
  split
  · split
    · refine Twin.bind (R := fun _ _ => True) (.pure trivial) fun count count' _ => .same twin_comma fun more => ?_
      cases more with
      | false => exact filled _ _ _ _
      | true =>
        refine twin_expression.bind fun value value' _ => ?_
        split
        · exact .failThen _ _
        · split
          · exact .symm (.failThen _ _)
          · exact filled _ _ _ _
    · exact .symm (.failThen _ _)
    · exact .symm (.failThen _ _)
  · exact .failThen _ _
  · exact .failThen _ _

/-- An event that gives the same name. -/
theorem alike_log {e e' : Assembler → Event} (h : ∀ s s', (e s).naming? = (e' s').naming?) :
    Alike (modify fun s => s.log (e s)) (modify fun s => s.log (e' s)) := by
  intro s s' t t' a a' abreast run run'
  cases run
  cases run'
  refine ⟨⟨abreast.tokens, ?_⟩, trivial⟩
  have before : s.trace.filterMap Event.naming? = s'.trace.filterMap Event.naming? := abreast.given
  simp only [given, log, List.filterMap_cons, h s s', before]

/-- Two passes read the same list of names and give the same ones. -/
theorem alike_declareWithin (isPublic : Bool) (n : Nat) :
    Alike (Asm.declareWithin isPublic n) (Asm.declareWithin isPublic n) := by
  induction n with
  | zero => exact .pure trivial
  | succ n ih =>
    rw [Asm.declareWithin]
    refine .same twin_nextToken fun t => ?_
    dsimp only
    split
    · rename_i name _
      refine (still_intern name t.pos).alike.bind fun id id' _ => ?_
      have declared : Alike
          (do modify (·.log (.declared name isPublic)); if ← Asm.comma then Asm.declareWithin isPublic n)
          (do modify (·.log (.declared name isPublic)); if ← Asm.comma then Asm.declareWithin isPublic n) :=
        (alike_log fun _ _ => rfl).bind fun _ _ _ => alike_ifComma ih
      cases isPublic with
      | true =>
        exact Twin.bind (.of_still (.modify fun _ => ⟨rfl, rfl⟩) (.modify fun _ => ⟨rfl, rfl⟩)) fun _ _ _ => declared
      | false =>
        exact Twin.bind (.of_still (still_defineId id name _ t.pos) (still_defineId id' name _ t.pos))
          fun _ _ _ => declared
    · exact .failThen _ _

theorem alike_placeName (name : String) : Alike (Asm.placeName name pos) (Asm.placeName name pos) := by
  refine Twin.bind Still.get.alike fun s s' _ => ?_
  refine Twin.bind (.of_still (still_defineName name s.here pos) (still_defineName name s'.here pos)) fun _ _ _ => ?_
  exact alike_log fun _ _ => rfl

theorem alike_equate (name : String) : Alike (Asm.equate name pos) (Asm.equate name pos) := by
  refine Twin.bind Still.get.alike fun s s' _ => twin_expression.bind fun a a' _ => ?_
  refine Twin.bind (.of_still (still_defineName name a pos) (still_defineName name a' pos)) fun _ _ _ => ?_
  exact alike_log fun _ _ => rfl

theorem alike_beginIf : Alike (Asm.beginIf pos) (Asm.beginIf pos) := by
  refine .same twin_condition fun c => Still.alike ?_
  refine still_newLabel.bind fun elseId => still_newLabel.bind fun endId => ?_
  exact .bind (.modify fun _ => ⟨rfl, rfl⟩) fun _ => (still_labelAddress elseId).bind fun a => still_branchIf _ a pos

theorem alike_elseIf : Alike (Asm.elseIf pos) (Asm.elseIf pos) := by
  refine .same twin_condition fun c => Still.alike (.bind .get fun s => ?_)
  split
  · rename_i elseId endId _
    refine still_newLabel.bind fun nextElse => .bind (.modify fun _ => ⟨rfl, rfl⟩) fun _ => ?_
    refine (still_labelAddress endId).bind fun a => (still_jump a pos).bind fun _ => ?_
    exact (still_placeLabel elseId pos).bind fun _ => (still_labelAddress nextElse).bind fun a => still_branchIf _ a pos
  · exact .fail _ _
  · exact .fail _ _

theorem twin_thenEnd {work work' : Asm Unit} (h : Alike work work') : Twin Eq (Asm.thenEnd work) (Asm.thenEnd work') :=
  h.bind fun _ _ _ => twin_endOfStatement

theorem alike_skipEmptyLines (n : Nat) : Alike (Asm.skipEmptyLines n) (Asm.skipEmptyLines n) := by
  induction n with
  | zero => exact .pure trivial
  | succ n ih =>
    rw [Asm.skipEmptyLines]
    refine .same twin_nextToken fun t => ?_
    split
    · exact ih
    · exact .same (twin_unread t) fun _ => Still.alike (.modify fun _ => ⟨rfl, rfl⟩)

theorem twin_peekToken : Twin Eq Asm.peekToken Asm.peekToken := by
  intro s s' t t' a a' abreast run run'
  unfold Asm.peekToken at run run'
  rw [← abreast.tokens] at run'
  cases found : s.tokens.peek with
  | mk outcome tokens =>
    rw [found] at run run'
    cases outcome with
    | error e => cases run
    | ok token =>
      cases run
      cases run'
      exact ⟨⟨rfl, abreast.given⟩, rfl⟩

/-- A token that was peeked at is read next. -/
theorem next_of_peekToken {s t : Assembler} {token : Token} (run : Asm.peekToken s = .ok token t) :
    ∃ rest, t.tokens.next = (.ok token, rest) := by
  unfold Asm.peekToken at run
  split at run
  · rename_i read tokens found
    cases run
    unfold TokenStream.peek at found
    split at found <;> cases found
    exact ⟨_, rfl⟩
  · cases run

end Statements

/-- `s` has read the end of a loop, as a statement or with the test of the loop; `s'` reads it next. -/
structure Ahead (s s' : Assembler) : Prop where
  given : s.given = s'.given
  reads : ∃ token u v flow, s'.tokens.next = (.ok token, u.tokens) ∧ token.lexeme = .keyword .loopEnd
    ∧ u.given = s'.given ∧ Asm.endOfStatement u = .ok flow v ∧ Abreast v s

theorem Ahead.congr {s s' t t' : Assembler} (h : Ahead s s') (left : Abreast s t) (right : Abreast s' t') :
    Ahead t t' := by
  obtain ⟨given, token, u, v, flow, read, loopEnd, before, ends, abreast⟩ := h
  refine ⟨?_, token, u, v, flow, right.tokens ▸ read, loopEnd, before.trans right.given, ends, abreast.trans left⟩
  rw [← left.given, given, right.given]

/-- Two states abreast, but for the end of a loop. -/
def Level (s s' : Assembler) : Prop := Abreast s s' ∨ Ahead s s' ∨ Ahead s' s

namespace Level

variable {s s' t t' : Assembler}

theorem given_eq (level : Level s s') : s.given = s'.given := by
  obtain abreast | ahead | behind := level
  · exact abreast.given
  · exact ahead.given
  · exact behind.given.symm

theorem congr (level : Level s s') (left : Abreast s t) (right : Abreast s' t') : Level t t' := by
  obtain abreast | ahead | behind := level
  · exact .inl ((left.symm.trans abreast).trans right)
  · exact .inr (.inl (ahead.congr left right))
  · exact .inr (.inr (behind.congr right left))

end Level

section LoopTest

variable {s s' t t' x x' : Assembler} {flow flow' : Flow} {next next' : Token} {pos : Position}

theorem eq_of_nextToken {token : Token} (run : Asm.nextToken s = .ok token t) :
    s.tokens.next = (.ok token, t.tokens) ∧ t.given = s.given := by
  unfold Asm.nextToken at run
  split at run
  · rename_i read tokens found
    cases run
    exact ⟨found, rfl⟩
  · cases run

theorem of_endOfStatement (run : Asm.endOfStatement s = .ok flow t) : flow = .goOn ∧ t.given = s.given := by
  obtain ⟨token, u, read, run⟩ := exists_of_bind_eq_ok run
  have given := (eq_of_nextToken read).2
  cases which : token.lexeme <;> rw [which] at run <;> cases run <;> exact ⟨rfl, given⟩

/-- The test of a loop up to the token `next` after it, which stays to be read. -/
def Opens (s : Assembler) (next : Token) (x : Assembler) : Prop :=
  ∃ c u u' flow v w, Asm.condition s = .ok c u ∧ Abreast u u' ∧ Asm.endOfStatement u' = .ok flow v
    ∧ Asm.skipEmptyLines v.tokens.budget v = .ok () w ∧ Asm.peekToken w = .ok next x

theorem Opens.abreast (abreast : Abreast s s') (h : Opens s next x) (h' : Opens s' next' x') :
    Abreast x x' ∧ next = next' := by
  obtain ⟨c, u, u₁, flow, v, w, condition, set, ends, blank, peeks⟩ := h
  obtain ⟨c', u', u₁', flow', v', w', condition', set', ends', blank', peeks'⟩ := h'
  have tested := (twin_condition abreast condition condition').1
  have ended := (twin_endOfStatement ((set.symm.trans tested).trans set') ends ends').1
  rw [← ended.tokens] at blank'
  exact twin_peekToken (alike_skipEmptyLines _ ended blank blank').1 peeks peeks'

theorem Opens.peeked (h : Opens s next x) : ∃ rest, x.tokens.next = (.ok next, rest) := by
  obtain ⟨_, _, _, _, _, _, -, -, -, -, peeks⟩ := h
  exact next_of_peekToken peeks

/-- The test alone, or with the end of the loop. -/
theorem of_whileTest (run : Asm.whileTest pos s = .ok flow t) :
    ∃ next x, Opens s next x ∧ (Abreast x t ∧ flow = .goOn ∨ next.isKeyword .loopEnd = true
      ∧ ∃ read y z, Asm.nextToken x = .ok read y ∧ Abreast y z ∧ Asm.endOfStatement z = .ok flow t) := by
  obtain ⟨c, u, condition, run⟩ := exists_of_bind_eq_ok run
  obtain ⟨_, _, got, run⟩ := exists_of_bind_eq_ok run
  cases got
  dsimp only at run
  cases innermost : BlockStack.top? u.blocks with
  | none => rw [innermost] at run; cases run
  | some b =>
    rw [innermost] at run
    cases b with
    | cond elseId endId => cases elseId <;> cases run
    | loop beginId repeatId endId tested =>
      cases tested with
      | true => cases run
      | false =>
        obtain ⟨_, u', set, run⟩ := exists_of_bind_eq_ok run
        have still : Still (Asm.setTop (.loop beginId repeatId endId true)) := .modify fun _ => ⟨rfl, rfl⟩
        obtain ⟨ended, v, ends, run⟩ := exists_of_bind_eq_ok run
        obtain ⟨_, _, got, run⟩ := exists_of_bind_eq_ok run
        cases got
        obtain ⟨_, w, blank, run⟩ := exists_of_bind_eq_ok run
        obtain ⟨top, _, got, run⟩ := exists_of_bind_eq_ok run
        cases got
        obtain ⟨next, x, peeks, run⟩ := exists_of_bind_eq_ok run
        obtain ⟨_, _, got, run⟩ := exists_of_bind_eq_ok run
        cases got
        refine ⟨next, x, ⟨c, u, u', ended, v, w, condition, still set, ends, blank, peeks⟩, ?_⟩
        split at run
        · rename_i takes
          rw [Bool.and_eq_true] at takes
          obtain ⟨read, y, reads, run⟩ := exists_of_bind_eq_ok run
          rw [← bind_assoc, ← bind_assoc] at run
          obtain ⟨_, z, written, ends⟩ := exists_of_bind_eq_ok run
          refine .inr ⟨takes.1, read, y, z, reads, ?_, ends⟩
          refine Still.bind (.bind (still_branchIf c _ pos) fun _ => still_placeLabel beginId pos) (fun _ => ?_) written
          exact .modify fun _ => ⟨rfl, rfl⟩
        · refine .inl ?_
          rw [← bind_assoc, ← bind_assoc] at run
          obtain ⟨_, z, written, ends⟩ := exists_of_bind_eq_ok run
          cases ends
          refine ⟨?_, rfl⟩
          refine Still.bind (.bind (still_labelAddress endId) fun a => still_branchIf c.invert a pos) (fun _ => ?_) written
          exact still_placeLabel beginId pos

/-- One pass that takes the end of a loop with its test is ahead of one that does not. -/
theorem ahead_of_whileTest {read : Token} {y z : Assembler} (abreast : Abreast x x')
    (peeked : ∃ rest, x.tokens.next = (.ok next, rest)) (loopEnd : next.isKeyword .loopEnd = true)
    (reads : Asm.nextToken x = .ok read y) (written : Abreast y z) (ends : Asm.endOfStatement z = .ok flow t)
    (alone : Abreast x' t') : Ahead t t' := by
  obtain ⟨found, given⟩ := eq_of_nextToken reads
  obtain ⟨rest, peeked⟩ := peeked
  rw [peeked] at found
  cases found
  have lexeme : next.lexeme = .keyword .loopEnd := by simpa [Token.isKeyword] using loopEnd
  have before : z.given = t'.given := by rw [← written.given, given, abreast.given, alone.given]
  refine ⟨(of_endOfStatement ends).2.trans before, next, z, t, flow, ?_, lexeme, before, ends, .refl t⟩
  rw [← alone.tokens, ← abreast.tokens, peeked, written.tokens]

/-- Two passes come to the same end of a test, unless only one of them takes the end of the loop with it. That one is
ahead. -/
theorem level_whileTest (abreast : Abreast s s') (run : Asm.whileTest pos s = .ok flow t)
    (run' : Asm.whileTest pos s' = .ok flow' t') : flow = flow' ∧ Level t t' := by
  obtain ⟨next, x, opens, goesOn⟩ := of_whileTest run
  obtain ⟨next', x', opens', goesOn'⟩ := of_whileTest run'
  obtain ⟨abreast, rfl⟩ := opens.abreast abreast opens'
  obtain ⟨alone, rfl⟩ | ⟨loopEnd, read, y, z, reads, written, ends⟩ := goesOn
  · obtain ⟨alone', rfl⟩ | ⟨loopEnd, read, y, z, reads, written, ends⟩ := goesOn'
    · exact ⟨rfl, .inl ((alone.symm.trans abreast).trans alone')⟩
    · have ahead := ahead_of_whileTest abreast.symm opens'.peeked loopEnd reads written ends alone
      exact ⟨(of_endOfStatement ends).1.symm, .inr (.inr ahead)⟩
  · obtain ⟨alone', rfl⟩ | ⟨-, read', y', z', reads', written', ends'⟩ := goesOn'
    · have ahead := ahead_of_whileTest abreast opens.peeked loopEnd reads written ends alone'
      exact ⟨(of_endOfStatement ends).1, .inr (.inl ahead)⟩
    · have read := (twin_nextToken abreast reads reads').1
      obtain ⟨ended, rfl⟩ := twin_endOfStatement ((written.symm.trans read).trans written') ends ends'
      exact ⟨rfl, .inl ended⟩

end LoopTest

section Turns

variable {given last : SourceTable} {α : Type}

/-- Two computations of one statement in two passes of a run, which starts with the files `given` and ends with the
files `last`. -/
def Turns (given last : SourceTable) (x x' : Asm Flow) : Prop :=
  ∀ ⦃s s' t t' flow flow'⦄, Abreast s s' → given.Within s.files → given.Within s'.files →
    x s = .ok flow t → x' s' = .ok flow' t' → t.files.Within last → t'.files.Within last → flow = flow' ∧ Level t t'

theorem Twin.turns {x x' : Asm Flow} (h : Twin Eq x x') : Turns given last x x' := by
  intro s s' t t' flow flow' abreast _ _ run run' _ _
  obtain ⟨abreast, same⟩ := h abreast run run'
  exact ⟨same, .inl abreast⟩

theorem Turns.fail (cause : Cause) (pos : Position) (x : Asm Flow) : Turns given last (Asm.fail cause pos) x :=
  Twin.turns (.fail cause pos)

/-- First something that loads no file. -/
theorem Turns.first {x : Asm α} {f f' : α → Asm Flow} (hx : Twin Eq x x) (stays : ∀ {s a t}, x s = .ok a t → Stays s t)
    (hf : ∀ a, Turns given last (f a) (f' a)) : Turns given last (x >>= f) (x >>= f') := by
  intro s s' t t' flow flow' abreast before before' run run' after after'
  obtain ⟨a, u, first, rest⟩ := exists_of_bind_eq_ok run
  obtain ⟨a', u', first', rest'⟩ := exists_of_bind_eq_ok run'
  obtain ⟨abreast, rfl⟩ := hx abreast first first'
  rw [← (stays first).files] at before
  rw [← (stays first').files] at before'
  exact hf a abreast before before' rest rest' after after'

theorem of_pushFile {ts ts' : TokenStream} {files : SourceTable} {id : Nat} {pos : Position}
    (h : ts.pushFile files id pos = .ok ts') :
    ∃ text, files.text? id = some text ∧ ts' = { ts with top := .ofText id text, below := ts.top :: ts.below } := by
  unfold TokenStream.pushFile at h
  split at h
  · cases h
  · split at h <;> cases h
    exact ⟨_, ‹_›, rfl⟩

/-- What including a name does. -/
theorem of_openInclude {s t : Assembler} {name : String} {pos : Position}
    (run : Asm.openInclude name pos s = .ok () t) :
    ∃ id text, s.files.load s.disk (s.files.resolveInclude pos.file name) = .ok (id, t.files)
      ∧ t.files.text? id = some text ∧ t.given = s.given
      ∧ t.tokens = { s.tokens with top := .ofText id text, below := s.tokens.top :: s.tokens.below } := by
  unfold Asm.openInclude at run
  split at run
  · cases run
  · rename_i id u loaded
    split at run
    · rename_i tokens pushed
      cases run
      obtain ⟨text, found, rfl⟩ := of_pushFile pushed
      have same := load_eq loaded
      have files := load_files loaded
      refine ⟨id, text, files, found, ?_, ?_⟩
      · rw [same]
        rfl
      · rw [same]
    · cases run

/-- An inclusion opens the same file in two passes, as long as no name stands for two. -/
theorem turns_openInclude (one : given.NamesOneFile last) (name : String) (pos : Position) :
    Turns given last (do Asm.openInclude name pos; return .goOn) (do Asm.openInclude name pos; return .goOn) := by
  intro s s' t t' flow flow' abreast before before' run run' after after'
  obtain ⟨_, u, opened, ended⟩ := exists_of_bind_eq_ok run
  cases ended
  obtain ⟨_, u', opened', ended⟩ := exists_of_bind_eq_ok run'
  cases ended
  obtain ⟨id, text, loaded, found, names, tokens⟩ := of_openInclude opened
  obtain ⟨id', text', loaded', found', names', tokens'⟩ := of_openInclude opened'
  -- both passes have opened the file that the name stands for in the end
  have number := SourceTable.idOf?_resolveInclude one before loaded after
  rw [SourceTable.idOf?_resolveInclude one before' loaded' after'] at number
  cases number
  have content := after.text? found
  rw [after'.text? found'] at content
  cases content
  exact ⟨rfl, .inl ⟨by rw [tokens, tokens', abreast.tokens], by rw [names, names', abreast.given]⟩⟩

theorem turns_includeFile (one : given.NamesOneFile last) (pos : Position) :
    Turns given last (Asm.includeFile pos) (Asm.includeFile pos) := by
  refine .first twin_nextToken stays_nextToken fun token => ?_
  split
  · refine .first twin_nextToken stays_nextToken fun ends => ?_
    dsimp only
    split
    · exact Twin.turns (.failThen _ _)
    · exact turns_openInclude one _ pos
  · exact .fail _ _ _

/-- A directive leaves two passes level. -/
theorem turns_directive (one : given.NamesOneFile last) (k : Keyword) (pos : Position) :
    Turns given last (Asm.directive k pos) (Asm.directive k pos) := by
  have quiet {work : Asm Unit} (h : Still work) : Turns given last (Asm.thenEnd work) (Asm.thenEnd work) :=
    Twin.turns (twin_thenEnd h.alike)
  have list {work : Nat → Asm Unit} (h : ∀ n, Alike (work n) (work n)) :
      Turns given last (Asm.thenEnd (do work (← Asm.budget))) (Asm.thenEnd (do work (← Asm.budget))) :=
    Twin.turns (twin_thenEnd (.same twin_budget h))
  cases k with
  | codeSpace => exact quiet (.modify fun _ => ⟨rfl, rfl⟩)
  | dataSpace => exact quiet (.modify fun _ => ⟨rfl, rfl⟩)
  | zeroPageSpace => exact quiet (.modify fun _ => ⟨rfl, rfl⟩)
  | bytes => exact list alike_bytesWithin
  | words => exact list alike_wordsWithin
  | reserve => exact Twin.turns (twin_thenEnd (alike_reserve pos))
  | declarePublic => exact list (alike_declareWithin true)
  | declareExternal => exact list (alike_declareWithin false)
  | includeFile => exact turns_includeFile one pos
  | endSource => exact Twin.turns (.same twin_endOfStatement fun _ => .pure rfl)
  | ifBlock => exact Twin.turns (twin_thenEnd (alike_beginIf pos))
  | elseIf => exact Twin.turns (twin_thenEnd (alike_elseIf pos))
  | elsePart => exact quiet (still_elsePart pos)
  | endIf => exact quiet (still_endIf pos)
  | doBlock => exact quiet (still_beginDo pos)
  | whileTest => exact fun _ _ _ _ _ _ abreast _ _ run run' _ _ => level_whileTest abreast run run'
  | loopEnd => exact quiet (still_endLoop pos)
  | equate => exact .fail _ _ _

/-- So does a statement, label after label. -/
theorem turns_statementWithin (one : given.NamesOneFile last) (n : Nat) (token : Token) :
    Turns given last (Asm.statementWithin n token) (Asm.statementWithin n token) := by
  induction n generalizing token with
  | zero => exact .fail _ _ _
  | succ n ih =>
    rw [Asm.statementWithin]
    split
    · exact turns_directive one _ _
    · rename_i name _
      refine .first twin_nextToken stays_nextToken fun after => ?_
      split
      · refine .first (twin_unit (alike_placeName token.pos name)) (stays_placeName token.pos) fun _ => ?_
        refine .first twin_nextToken stays_nextToken fun next => ?_
        split
        · exact Twin.turns (.same (twin_unread next) fun _ => twin_endOfStatement)
        · exact ih next
      · split
        · exact Twin.turns (twin_thenEnd (alike_equate token.pos name))
        · refine Twin.turns (.same (twin_unread after) fun _ => Twin.bind Still.get.alike fun s s' _ => ?_)
          split
          · split
            · exact twin_thenEnd (alike_instruction token.pos _ _)
            · exact .symm (.fail _ _)
          · exact .fail _ _
    · exact .fail _ _ _

theorem turns_statement (one : given.NamesOneFile last) (token : Token) :
    Turns given last (Asm.statement token) (Asm.statement token) := by
  refine .first twin_budget (fun run => ?_) fun n => turns_statementWithin one n token
  cases run
  exact .refl _

end Turns

end Assembler

end Asm65
