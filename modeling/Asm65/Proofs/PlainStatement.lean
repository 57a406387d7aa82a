import Asm65.Proofs.Emission

/-!
# Statements outside blocks

Instructions, data, declarations, inclusion and the definition of names do nothing but actions: they never
open a block or give a label of a block its place.
-/

namespace Asm65
set_option autoImplicit false

/-- The address in an operand. -/
def Operand.address? : Operand Address → Option Address
  | .none | .accumulator => Option.none
  | .immediate a | .direct a _ | .indirect a | .indexedIndirect a | .indirectIndexed a => some a

namespace Assembler

variable {P : Assembler → Prop}

theorem does_endOfStatement : Plain Asm.endOfStatement := by
  refine .first does_nextToken fun t => ?_
  split
  · exact .pure fun _ _ _ => trivial
  · exact .first (does_unread t) fun _ => .pure fun _ _ _ => trivial
  · exact .fail _ _

theorem does_comma : Plain Asm.comma := by
  refine .first does_nextToken fun t => ?_
  split
  · exact .pure fun _ _ _ => trivial
  · exact .first (does_unread t) fun _ => .pure fun _ _ _ => trivial

/-- The address of an operand is known or has been reported. -/
def OperandKnown (s : Assembler) (o : Operand Address) : Prop := ∀ a, o.address? = some a → s.Known a

theorem operandKnown_of_known {s : Assembler} {o : Operand Address} {a : Address} (h : s.Known a) (same : o.address? = some a) :
    s.OperandKnown o := by
  intro b hb
  rw [same] at hb
  cases hb
  exact h

theorem operandKnown_of_none {s : Assembler} {o : Operand Address} (none : o.address? = none) : s.OperandKnown o := by
  intro b hb
  rw [none] at hb
  cases hb

theorem does_expectRegister (register : String) : Plain (Operand.expectRegister register : Asm Unit) := by
  refine .first does_nextToken fun t => ?_
  split
  · exact .pure fun _ _ _ => trivial
  · exact .fail _ _

theorem does_readInner : Does (Acts []) P Operand.readInner (fun o s => s.OperandKnown o) := by
  refine evaluates_expression.bind fun a => ?_
  have known := stable_known (R := Acts []) a
  refine does_nextToken.andThen known fun t => ?_
  split
  · refine (does_expectRegister "X").andThen known fun _ => ?_
    refine (does_expect .rparen).andThen known fun _ => ?_
    exact .pure fun _ _ h => operandKnown_of_known h rfl
  · split
    · refine does_comma.andThen known fun more => ?_
      split
      · refine (does_expectRegister "Y").andThen known fun _ => ?_
        exact .pure fun _ _ h => operandKnown_of_known h rfl
      · exact .pure fun _ _ h => operandKnown_of_known h rfl
    · exact .first (does_unread t) fun _ => .fail _ _

theorem does_readIndex (a : Address) :
    Does (Acts []) (fun s => s.Known a) (Operand.readIndex a) (fun o s => s.OperandKnown o) := by
  have known := stable_known (R := Acts []) a
  refine does_comma.andThen known fun more => ?_
  split
  · refine does_nextToken.andThen known fun t => ?_
    split
    · exact .pure fun _ _ h => operandKnown_of_known h rfl
    · exact .pure fun _ _ h => operandKnown_of_known h rfl
    · exact .fail _ _
  · exact .pure fun _ _ h => operandKnown_of_known h rfl

/-- Reading an operand only asks for names, and its address is known or has been reported. -/
theorem does_operand : Does (Acts []) P Asm.operand (fun o s => s.OperandKnown o) := by
  refine .first does_nextToken fun t => ?_
  have direct : Does (Acts []) (fun _ => True) (do Asm.unread t; Operand.readIndex (← Asm.expression))
      (fun o s => s.OperandKnown o) :=
    .first (does_unread t) fun _ => evaluates_expression.bind does_readIndex
  split
  · exact .first (does_unread t) fun _ => .pure fun _ _ _ => operandKnown_of_none rfl
  · exact .first (does_unread t) fun _ => .pure fun _ _ _ => operandKnown_of_none rfl
  · exact evaluates_expression.bind fun a => .pure fun _ _ h => operandKnown_of_known h rfl
  · exact does_readInner
  · split
    · refine .first does_nextToken fun after => .first (does_unread after) fun _ => ?_
      split
      · exact .pure fun _ _ _ => operandKnown_of_none rfl
      · refine (evaluates_resolve _ _).bind fun left => ?_
        exact (evaluates_goOn left 1).bind does_readIndex
    · exact direct
  · exact direct

theorem does_emitOpcode (m : Mnemonic) (mode : Mode) (pos : Position) : Plain (Asm.emitOpcode m mode pos) := by
  refine .ofRun fun s _ _ => ?_
  unfold Asm.emitOpcode
  split
  · exact .inr ⟨(), _, rfl, emit_eq_emitAll s _ ▸ .single (.bytes _), trivial⟩
  · exact .inl ⟨_, rfl⟩

variable (m : Mnemonic) (mode : Mode) (a : Address) (pos : Position)

/-- An opcode, and an operand that is known or has been reported. -/
theorem does_emitWith {a : Address} {write : Assembler → Assembler} (acts : ∀ s, s.Known a → Acts [] s (write s)) :
    Does (Acts []) (fun s => s.Known a) (Asm.emitWith m mode pos write) (fun _ _ => True) :=
  (does_emitOpcode m mode pos).andThen (stable_known a) fun _ => .modify fun s _ known => ⟨acts s known, trivial⟩

theorem does_emitWithByte : Does (Acts []) (fun s => s.Known a) (Asm.emitWithByte m mode a pos) (fun _ _ => True) :=
  does_emitWith m mode pos fun s known =>
    (acts_emitByteOperand pos known.aims).tail (.mark mode (narrowed_emitByteOperand s pos a))

theorem does_emitWithWord : Does (Acts []) (fun s => s.Known a) (Asm.emitWithWord m mode a pos) (fun _ _ => True) :=
  does_emitWith m mode pos fun _ known => acts_emitWord known.aims

theorem does_emitWithPointer :
    Does (Acts []) (fun s => s.Known a) (Asm.emitWithPointer m mode a pos) (fun _ _ => True) :=
  does_emitWith m mode pos fun _ known => acts_emitPointer pos known.aims

theorem does_emitDirect (index : Index) :
    Does (Acts []) (fun s => s.Known a) (Asm.emitDirect m a index pos) (fun _ _ => True) := by
  refine .getThen fun s _ known => ?_
  dsimp only
  split
  · exact (does_emitWithByte m _ a pos).fromState known
  · split
    · exact (does_emitWithPointer m _ a pos).fromState known
    · exact (does_emitWithWord m _ a pos).fromState known

/-- Writing an instruction whose operand is known takes actions alone, by the form of the operand. -/
theorem does_encode (o : Operand Address) :
    Does (Acts []) (fun s => s.OperandKnown o) (Asm.encode m o pos) (fun _ _ => True) := by
  refine .getThen fun s _ known => ?_
  have plain (mode : Mode) : Does (Acts []) (· = s) (Asm.emitOpcode m mode pos) (fun _ _ => True) :=
    (does_emitOpcode m mode pos).fromState trivial
  dsimp only
  split
  · split
    · exact plain _
    · split
      · exact plain _
      · exact .fail _ _
  · split
    · exact plain _
    · exact .fail _ _
  · exact (does_emitWithByte m _ _ pos).fromState (known _ rfl)
  · split
    · exact (does_branch _ _ pos).fromState (known _ rfl).aims
    · exact (does_emitDirect m _ pos _).fromState (known _ rfl)
  · exact (does_emitDirect m _ pos _).fromState (known _ rfl)
  · split
    · exact (does_emitWithPointer m _ _ pos).fromState (known _ rfl)
    · exact (does_emitWithByte m _ _ pos).fromState (known _ rfl)
  · split
    · exact (does_emitWithPointer m _ _ pos).fromState (known _ rfl)
    · exact (does_emitWithByte m _ _ pos).fromState (known _ rfl)
  · exact (does_emitWithByte m _ _ pos).fromState (known _ rfl)

theorem does_instruction : Plain (Asm.instruction m pos) :=
  does_operand.bind fun o => does_encode m pos o

/-- A definition that is refused is only noted. -/
theorem defineId_eq (id : SymbolId) (name : String) (a : Address) (pos : Position) (s : Assembler) :
    ((s.symbols.define id name a s.pass).1 = .duplicate ∧
        Asm.defineId id name a pos s = .error (.at_ (.symbolRedefined name) pos) (s.log (.refused id))) ∨
      ((s.symbols.define id name a s.pass).1 ≠ .duplicate ∧
        Asm.defineId id name a pos s = .ok () (s.assign id name a)) := by
  unfold Asm.defineId
  split
  · rename_i symbols refused
    exact .inl ⟨congrArg Prod.fst refused, rfl⟩
  · rename_i outcome symbols new accepted
    refine .inr ⟨fun refused => new ?_, ?_⟩
    · rw [accepted] at refused
      exact refused
    · simp only [assign, accepted]

theorem does_declareExternal (id : SymbolId) (name : String) (pos : Position) :
    Does (Acts []) (fun s => s.identifiers.ids[name]? = some id)
      (do Asm.defineId id name (.external id) pos; modify (·.log (.declared name false))) (fun _ _ => True) := by
  refine .ofOutcome fun s _ known => ?_
  simp only [bind, EStateM.bind]
  obtain ⟨_, run⟩ | ⟨new, run⟩ := defineId_eq id name (.external id) pos s
  · exact .inl ⟨_, _, by rw [run], .single (.clash known)⟩
  · exact .inr ⟨(), _, by rw [run]; rfl, .single (.declareExternal known new), trivial⟩

theorem does_declarePublic (id : SymbolId) (name : String) :
    Does (Acts []) (fun s => s.identifiers.ids[name]? = some id)
      (do
        modify fun s => { s with symbols := s.symbols.declarePublic id name }
        modify (·.log (.declared name true)))
      (fun _ _ => True) :=
  .ofRun fun _ _ known => .inr ⟨(), _, rfl, .single (.declarePublic known), trivial⟩

/-- A list goes on after a comma. -/
theorem does_ifComma {x : Asm Unit} (h : Plain x) : Plain (do if ← Asm.comma then x) := by
  refine .first does_comma fun more => ?_
  split
  · exact h
  · exact .pure fun _ _ _ => trivial

theorem does_bytesWithin (n : Nat) : Plain (Asm.bytesWithin n) := by
  induction n with
  | zero => exact .pure fun _ _ _ => trivial
  | succ n ih =>
    rw [Asm.bytesWithin]
    refine .first does_nextToken fun t => ?_
    dsimp only
    split
    · exact .first (.modify fun _ _ _ => ⟨.single (.bytes _), trivial⟩) fun _ => does_ifComma ih
    · refine .first (does_unread t) fun _ => evaluates_expression.bind fun a => ?_
      refine Does.bind (.modify fun s _ known => ?_) fun _ => does_ifComma ih
      exact ⟨acts_emitByteOperand t.pos known.aims, trivial⟩

theorem does_wordsWithin (n : Nat) : Plain (Asm.wordsWithin n) := by
  induction n with
  | zero => exact .pure fun _ _ _ => trivial
  | succ n ih =>
    rw [Asm.wordsWithin]
    refine .first does_nextToken fun t => .first (does_unread t) fun _ => evaluates_expression.bind fun a => ?_
    refine Does.bind (.modify fun s _ known => ?_) fun _ => does_ifComma ih
    exact ⟨acts_emitWord known.aims, trivial⟩

/-- Reserving space takes actions alone: the size is read, perhaps a byte to fill with, and bytes are added. -/
theorem does_reserve : Plain (Asm.reserve pos) := by
  have position : Plain Asm.nextPosition :=
    .first does_nextToken fun t => .first (does_unread t) fun _ => .pure fun _ _ _ => trivial
  have filled (count : Nat) (fill : UInt8) : Plain (modify (·.emitAll (Array.replicate count fill))) :=
    .modify fun _ _ _ => ⟨.single (.bytes _), trivial⟩
  refine .first position fun sizePos => .first evaluates_expression.plain fun size => ?_
  dsimp only
  split
  · refine .first (.pure fun _ _ _ => trivial) fun count => .first does_comma fun more => ?_
    split
    · refine .first evaluates_expression.plain fun value => ?_
      split
      · exact .failThen _ _
      · exact filled _ _
    · exact filled _ _
  · exact .failThen _ _
  · exact .failThen _ _

/-- Declaring names takes actions alone, one for each name of the list. -/
theorem does_declareWithin (isPublic : Bool) (n : Nat) : Plain (Asm.declareWithin isPublic n) := by
  induction n with
  | zero => exact .pure fun _ _ _ => trivial
  | succ n ih =>
    rw [Asm.declareWithin]
    refine .first does_nextToken fun t => ?_
    dsimp only
    split
    · refine (does_intern _ _).bind fun id => ?_
      cases isPublic with
      | true =>
        rw [if_pos rfl, ← bind_assoc]
        exact (does_declarePublic id _).bind fun _ => does_ifComma ih
      | false =>
        rw [if_neg Bool.false_ne_true, ← bind_assoc]
        exact (does_declareExternal id _ _).bind fun _ => does_ifComma ih
    · exact .failThen _ _

theorem does_openInclude (name : String) : Plain (Asm.openInclude name pos) := by
  refine .ofResult fun s _ _ => ?_
  unfold Asm.openInclude
  cases loaded : s.load (s.files.resolveInclude pos.file name) with
  | error cause => exact Relation.ReflTransGen.refl
  | ok found =>
    obtain ⟨id, t⟩ := found
    have load : Acts [] s t := .single (.load loaded)
    dsimp only
    cases t.tokens.pushFile t.files id pos with
    | ok tokens => exact ⟨load.trans (acts_read t tokens t.lineEnded), trivial⟩
    | error e => exact load

theorem does_includeFile : Plain (Asm.includeFile pos) := by
  refine .first does_nextToken fun t => ?_
  split
  · refine .first does_nextToken fun last => ?_
    dsimp only
    split
    · exact .failThen _ _
    · exact .first (does_openInclude pos _) fun _ => .pure fun _ _ _ => trivial
  · exact .fail _ _

/-- A definition that is followed by a note of it. -/
theorem does_defineName {s : Assembler} {name : String} {a : Address} {event : Assembler → Event}
    (act : ∀ (id : SymbolId) (identifiers : IdentifierTable),
      let t := { s with identifiers }
      identifiers.ids[name]? = some id → (t.symbols.define id name a t.pass).1 ≠ .duplicate →
        Action [] t ((t.assign id name a).log (event (t.assign id name a)))) :
    Does (Acts []) (· = s) (do Asm.defineName name a pos; modify fun s => s.log (event s)) (fun _ _ => True) := by
  unfold Asm.defineName
  rw [bind_assoc]
  refine ((does_intern name pos).fromState trivial).bindFrom fun id t run _ known => ?_
  obtain ⟨identifiers, rfl⟩ := eq_of_intern run
  refine .ofOutcome fun t _ same => ?_
  subst same
  simp only [bind, EStateM.bind]
  obtain ⟨-, run⟩ | ⟨new, run⟩ := defineId_eq id name a pos { s with identifiers }
  · exact .inl ⟨_, _, by rw [run], .single (.clash known)⟩
  · exact .inr ⟨(), _, by rw [run]; rfl, .single (act id identifiers known new), trivial⟩

theorem does_placeName (name : String) : Plain (Asm.placeName name pos) :=
  .getThen fun _ _ _ => does_defineName pos fun _ _ known new => .place known new

/-- No byte of the statement has been written yet. -/
def AtStart (s : Assembler) : Prop := s.start = s.here

theorem Stays.atStart {s t : Assembler} (stays : Stays s t) (h : s.AtStart) : t.AtStart := by
  unfold AtStart
  rw [stays.start, stays.here]
  exact h

theorem stays_nextToken {s t : Assembler} {token : Token} (run : Asm.nextToken s = .ok token t) : Stays s t := by
  unfold Asm.nextToken at run
  split at run <;> cases run
  exact ⟨rfl, rfl, rfl, rfl, rfl, rfl, rfl⟩

theorem stays_placeName {s t : Assembler} {name : String} (run : Asm.placeName name pos s = .ok () t) : Stays s t := by
  obtain ⟨_, _, asked, run⟩ := exists_of_bind_eq_ok run
  cases asked
  obtain ⟨_, u, defined, run⟩ := exists_of_bind_eq_ok run
  cases run
  obtain ⟨id, v, interned, defined⟩ := exists_of_bind_eq_ok defined
  obtain ⟨identifiers, rfl⟩ := eq_of_intern interned
  obtain ⟨-, refused⟩ | ⟨-, accepted⟩ := defineId_eq id name s.here pos { s with identifiers }
  · cases refused.symm.trans defined
  · cases accepted.symm.trans defined
    exact ⟨rfl, rfl, rfl, rfl, rfl, rfl, rfl⟩

theorem does_equate (name : String) : Does (Acts []) AtStart (Asm.equate name pos) (fun _ _ => True) := by
  refine .getThen fun s sound atStart => ?_
  refine (evaluates_expression (P := fun _ => True)).fromState trivial |>.bindFrom fun value t run _ known => ?_
  obtain ⟨rest, reads, replays⟩ := replays_expression sound run
  -- giving the defined name its number changes no value
  have evaluates (identifiers : IdentifierTable) :
      Expression.read (⟨s.tokens, { t with identifiers }.valueOf, t.here⟩ : Scope Address) = .ok value rest := by
    have names : { t with identifiers }.valueOf = s.valueOf := valueOf_congr replays.symbols
    rw [names, replays.stays.here, ← atStart]
    exact reads
  exact does_defineName pos fun id identifiers numbered new =>
    .equate numbered new ⟨known.drawn.direct, known.drawn.asked⟩ (evaluates identifiers)

end Assembler

end Asm65
