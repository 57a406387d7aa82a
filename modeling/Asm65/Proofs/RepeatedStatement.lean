import Asm65.Proofs.NextPass

/-!
# Statements that are repeated

Instructions, data, declarations and definitions of a pass that has no errors and moves nothing are repeated by the next
pass.
-/

namespace Asm65
set_option autoImplicit false

namespace Assembler

variable {f s t u : Assembler} {E : SymbolId → Prop} {α : Type}

theorem echoes_budget : Echoes f Asm.budget := .get (fun _ => rfl) fun _ => .pure _

theorem echoes_comma (done : f.Done) : Echoes f Asm.comma := (closed_echoes done).comma

theorem echoes_endOfStatement : Echoes f Asm.endOfStatement := by
  refine .bind echoes_nextToken fun token => ?_
  split
  · exact .pure _
  · exact .bind (echoes_unread token) fun _ => .pure _
  · exact .fail _ _

theorem echoes_thenEnd {work : Asm Unit} (h : Echoes f work) : Echoes f (Asm.thenEnd work) :=
  h.bind fun _ => echoes_endOfStatement

/-! ### Instructions -/

theorem echoes_emitOpcode (m : Mnemonic) (mode : Mode) (pos : Position) : Echoes f (Asm.emitOpcode m mode pos) := by
  intro s a t run
  unfold Asm.emitOpcode at run
  cases found : s.cpu.opcode? m mode with
  | none => rw [found] at run; cases run
  | some op =>
    rw [found] at run
    cases run
    refine ⟨⟨rfl, rfl⟩, fun E leads => ⟨{ leads with }, fun files => ⟨?_, files⟩⟩⟩
    have found : (ahead f s).cpu.opcode? m mode = some op := found
    rw [Asm.emitOpcode, found]
    rfl

theorem echoes_emitWith (m : Mnemonic) (mode : Mode) (pos : Position) {write : Assembler → Assembler}
    (h : Harmless f write) : Echoes f (Asm.emitWith m mode pos write) :=
  .bind (echoes_emitOpcode m mode pos) fun _ => h.echoes

/-- A decision depends on the places and on the log of the pass before. -/
theorem echoes_reach (pos : Position) (target : Address) (short long : Nat) : Echoes f (Asm.reach pos target short long) := by
  intro s a t run
  obtain ⟨length, found, rfl⟩ := exists_of_reach run
  refine ⟨⟨rfl, rfl⟩, fun E leads => ⟨{ leads with }, fun files => ⟨?_, files⟩⟩⟩
  have found : (ahead f s).estimate pos target short long (ahead f s).reachLog.size = (.ok a, length) := found
  rw [Asm.reach]
  dsimp only
  rw [found]
  rfl

theorem echoes_emitShort (op : UInt8) (offset : Int) : Echoes f (Asm.emitShort op offset) :=
  ((harmless_emit op).comp (harmless_emit _)).echoes

theorem echoes_emitAll (bs : Array UInt8) : Echoes f (modify (·.emitAll bs)) :=
  Harmless.echoes ⟨fun _ => ⟨rfl, rfl⟩, fun _ => rfl, fun h => { h with }, fun _ => rfl⟩

section

variable (done : f.Done)

include done

theorem echoes_emitJump (target : Address) (pos : Position) : Echoes f (Asm.emitJump target pos) :=
  ((harmless_emit _).comp (harmless_emitPointer done pos target)).echoes

theorem echoes_emitAround (op : UInt8) (target : Address) (pos : Position) : Echoes f (Asm.emitAround op target pos) :=
  .bind ((harmless_emit _).comp (harmless_emit 3)).echoes fun _ => echoes_emitJump done target pos

theorem echoes_branch (op : UInt8) (target : Address) (pos : Position) : Echoes f (Asm.branch op target pos) := by
  refine .get (fun _ => rfl) fun s => .bind (echoes_reach pos target 2 _) fun r => ?_
  split
  · exact echoes_emitShort op _
  · split
    · dsimp only
      split
      · refine .bind ?_ fun _ => echoes_emitShort op 0
        exact Harmless.echoes ⟨fun _ => ⟨rfl, rfl⟩, fun _ => rfl, fun h => { h with }, fun _ => rfl⟩
      · exact echoes_emitShort op 0
    · split
      · exact echoes_emitJump done target pos
      · exact echoes_emitAround done op target pos

theorem echoes_branchIf (c : Condition) (target : Address) (pos : Position) : Echoes f (Asm.branchIf c target pos) := by
  refine .bind (echoes_reach pos target 2 5) fun r => ?_
  split
  · exact echoes_emitShort _ _
  · exact echoes_emitAround done _ target pos

theorem echoes_jump (target : Address) (pos : Position) : Echoes f (Asm.jump target pos) := by
  refine .get (fun _ => rfl) fun s => ?_
  split
  · refine .bind (echoes_reach pos target 2 3) fun r => ?_
    split
    · exact echoes_emitShort _ _
    · exact echoes_emitJump done target pos
  · exact echoes_emitJump done target pos

theorem echoes_emitWithByte (m : Mnemonic) (mode : Mode) (a : Address) (pos : Position) :
    Echoes f (Asm.emitWithByte m mode a pos) := by
  have write := harmless_emitByteOperand done pos a
  refine echoes_emitWith m mode pos ⟨fun s => ?_, fun s => ?_, fun {E s} h => ?_, fun {E s} h => ?_⟩
  · exact ⟨(write.still s).blocks, (write.still s).nextLabel⟩
  · exact write.files s
  · exact write.leads { h with }
  · have leads : Leads f E (s.emitByteOperand pos a) := { h with }
    show ((ahead f s).emitByteOperand pos a).log _ = _
    rw [write.ahead leads]
    rfl

theorem echoes_emitDirect (m : Mnemonic) (a : Address) (index : Index) (pos : Position) :
    Echoes f (Asm.emitDirect m a index pos) := by
  refine .get (fun _ => rfl) fun s => ?_
  dsimp only
  split
  · exact echoes_emitWithByte done m _ a pos
  · split
    · exact echoes_emitWith m _ pos (harmless_emitPointer done pos a)
    · exact echoes_emitWith m _ pos (harmless_emitWord a)

/-- An instruction is written again in the same form. -/
theorem echoes_encode (m : Mnemonic) (o : Operand Address) (pos : Position) : Echoes f (Asm.encode m o pos) := by
  refine .get (fun _ => rfl) fun s => ?_
  dsimp only
  split
  · split
    · exact echoes_emitOpcode m _ pos
    · split
      · exact echoes_emitOpcode m _ pos
      · exact .fail _ _
  · split
    · exact echoes_emitOpcode m _ pos
    · exact .fail _ _
  · exact echoes_emitWithByte done m _ _ pos
  · split
    · exact echoes_branch done _ _ pos
    · exact echoes_emitDirect done m _ _ pos
  · exact echoes_emitDirect done m _ _ pos
  · split
    · exact echoes_emitWith m _ pos (harmless_emitPointer done pos _)
    · exact echoes_emitWithByte done m _ _ pos
  · split
    · exact echoes_emitWith m _ pos (harmless_emitPointer done pos _)
    · exact echoes_emitWithByte done m _ _ pos
  · exact echoes_emitWithByte done m _ _ pos

theorem echoes_instruction (m : Mnemonic) (pos : Position) : Echoes f (Asm.instruction m pos) :=
  (echoes_operand done).bind fun o => echoes_encode done m o pos

/-! ### Directives -/

/-- A list of bytes is written again, item by item. -/
theorem echoes_bytesWithin (n : Nat) : Echoes f (Asm.bytesWithin n) := by
  induction n with
  | zero => exact .pure ()
  | succ n ih =>
    rw [Asm.bytesWithin]
    have rest : Echoes f (do if ← Asm.comma then Asm.bytesWithin n) := by
      refine .bind (echoes_comma done) fun more => ?_
      split
      · exact ih
      · exact .pure ()
    refine .bind echoes_nextToken fun token => ?_
    dsimp only
    split
    · exact .bind (echoes_emitAll _) fun _ => rest
    · refine .bind (echoes_unread token) fun _ => .bind (echoes_expression done) fun value => ?_
      exact .bind (harmless_emitByteOperand done token.pos value).echoes fun _ => rest

theorem echoes_wordsWithin (n : Nat) : Echoes f (Asm.wordsWithin n) := by
  induction n with
  | zero => exact .pure ()
  | succ n ih =>
    rw [Asm.wordsWithin]
    refine .bind echoes_nextToken fun token => .bind (echoes_unread token) fun _ => ?_
    refine .bind (echoes_expression done) fun value => .bind (harmless_emitWord value).echoes fun _ => ?_
    refine .bind (echoes_comma done) fun more => ?_
    split
    · exact ih
    · exact .pure ()

theorem echoes_reserve (pos : Position) : Echoes f (Asm.reserve pos) := by
  refine .bind (.bind echoes_nextToken fun token => .bind (echoes_unread token) fun _ => .pure _) fun sizePos => ?_
  refine .bind (echoes_expression done) fun size => ?_
  dsimp only
  split
  · refine .bind (.pure _) fun count => .bind (echoes_comma done) fun more => ?_
    split
    · refine .bind (echoes_expression done) fun value => ?_
      split
      · exact .failThen _ _
      · exact echoes_emitAll _
    · exact echoes_emitAll _
  · exact .failThen _ _
  · exact .failThen _ _

/-- A list of names is declared again, name by name. -/
theorem echoes_declareWithin (isPublic : Bool) (n : Nat) : Echoes f (Asm.declareWithin isPublic n) := by
  induction n with
  | zero => exact .pure ()
  | succ n ih =>
    rw [Asm.declareWithin]
    have rest (name : String) : Echoes f (do
        modify (·.log (.declared name isPublic))
        if ← Asm.comma then Asm.declareWithin isPublic n) := by
      refine .bind (harmless_log fun _ => rfl).echoes fun _ => .bind (echoes_comma done) fun more => ?_
      split
      · exact ih
      · exact .pure ()
    refine .bind echoes_nextToken fun token => ?_
    dsimp only
    split
    · rename_i name _
      refine .intern fun id s known => ?_
      split
      · exact (echoesAt_declarePublic done known).bind fun _ u _ => rest name u
      · exact (echoesAt_defineId done _ _ known).bind fun _ u _ => rest name u
    · exact .failThen _ _

end

theorem load_eq_self {path : Path} {id : Nat} (known : s.files.load s.disk path = .ok (id, s.files)) :
    s.load path = .ok (id, s) := by
  unfold load
  rw [known]
  dsimp only
  rw [if_neg (Nat.lt_irrefl _)]

/-- All files that are included are known already. -/
theorem echoes_openInclude (name : String) (pos : Position) : Echoes f (Asm.openInclude name pos) := by
  intro s a t run
  unfold Asm.openInclude at run
  cases found : s.load (s.files.resolveInclude pos.file name) with
  | error cause => rw [found] at run; cases run
  | ok loaded =>
    obtain ⟨id, u⟩ := loaded
    rw [found] at run
    dsimp only at run
    cases pushed : u.tokens.pushFile u.files id pos with
    | error e => rw [pushed] at run; cases run
    | ok tokens =>
      rw [pushed] at run
      cases run
      have shape := load_eq found
      obtain ⟨within, -⟩ := SourceTable.of_load (load_files found)
      refine ⟨?_, fun E leads => ⟨?_, fun files => ?_⟩⟩
      · rw [shape]
        exact ⟨rfl, rfl⟩
      · rw [shape] at leads
        exact { leads with files := within.trans leads.files }
      · have same : u.files = s.files := by
          refine SourceTable.Within.antisymm ?_ within
          rw [files]
          exact leads.files
        have known := load_files found
        rw [same] at known pushed
        have again : (ahead f s).load ((ahead f s).files.resolveInclude pos.file name) = .ok (id, ahead f s) :=
          load_eq_self known
        have pushed : (ahead f s).tokens.pushFile (ahead f s).files id pos = .ok tokens := by
          rw [shape] at pushed
          exact pushed
        rw [Asm.openInclude, again]
        dsimp only
        rw [pushed, shape, same]
        exact ⟨rfl, files⟩

theorem echoes_includeFile (pos : Position) : Echoes f (Asm.includeFile pos) := by
  refine .bind echoes_nextToken fun token => ?_
  split
  · refine .bind echoes_nextToken fun last => ?_
    split
    · exact .failThen _ _
    · exact .bind (echoes_openInclude _ _) fun _ => .pure _
  · exact .fail _ _

theorem echoes_switchTo (space : Space) : Echoes f (Asm.switchTo space) :=
  Harmless.echoes ⟨fun _ => ⟨rfl, rfl⟩, fun _ => rfl, fun h => { h with }, fun _ => rfl⟩

theorem echoes_placeName (done : f.Done) (name : String) (pos : Position) : Echoes f (Asm.placeName name pos) := by
  refine .get (fun _ => rfl) fun s => .bind (echoes_defineName done name _ pos) fun _ => ?_
  exact (harmless_log fun _ => rfl).echoes

theorem echoes_equate (done : f.Done) (name : String) (pos : Position) : Echoes f (Asm.equate name pos) := by
  refine .get (fun _ => rfl) fun s => .bind (echoes_expression done) fun value => ?_
  exact .bind (echoes_defineName done name value pos) fun _ => (harmless_log fun _ => rfl).echoes

end Assembler

end Asm65
