import Asm65.Proofs.PlainStatement
import Asm65.Proofs.ReadingParts
import Asm65.Proofs.Unfolding

/-!
# What a statement is put together from

Statements take and put back tokens as readings do, and between that they act on names, the current segment and blocks,
where nothing is read. A property of computations that holds of both and is kept by what follows one another holds of
the work of every statement, up to the end of its line. How a statement ends, what an inclusion reads next, how a test looks
ahead for the end of its loop, and a switch to another space, are not part of it.
-/

namespace Asm65
set_option autoImplicit false

/-! ### Lists -/

namespace Asm

/-- Entries with commas between them. -/
def listed (entry self : Asm Unit) : Asm Unit := do
  entry
  if ← comma then self

/-- A string or a one-byte operand. -/
def byteEntry : Asm Unit := do
  let t ← nextToken
  match t.lexeme with
  | .string s => modify (·.emitAll s.toUTF8.data)
  | _ =>
    unread t
    let value ← expression
    modify (·.emitByteOperand t.pos value)

def wordEntry : Asm Unit := do
  let t ← nextToken
  unread t
  let value ← expression
  modify (·.emitWord value)

/-- A name that is declared. -/
def nameEntry (isPublic : Bool) : Asm Unit := do
  let t ← nextToken
  match t.lexeme with
  | .identifier name =>
    let id ← intern name t.pos
    if isPublic then modify fun s => { s with symbols := s.symbols.declarePublic id name }
    else defineId id name (.external id) t.pos
    modify (·.log (.declared name isPublic))
  | lexeme => fail (.symbolNameExpected lexeme) t.pos

theorem bytesWithin_eq (n : Nat) : bytesWithin n = unfolded (listed byteEntry) (pure ()) n := by
  induction n with
  | zero => rfl
  | succ n ih =>
    rw [unfolded, ← ih, bytesWithin, listed, byteEntry, bind_assoc]
    refine congrArg (nextToken >>= ·) (funext fun t => ?_)
    cases t.lexeme <;> simp only [bind_assoc]

theorem wordsWithin_eq (n : Nat) : wordsWithin n = unfolded (listed wordEntry) (pure ()) n := by
  induction n with
  | zero => rfl
  | succ n ih =>
    rw [unfolded, ← ih, wordsWithin, listed, wordEntry]
    simp only [bind_assoc]

theorem declareWithin_eq (isPublic : Bool) (n : Nat) :
    declareWithin isPublic n = unfolded (listed (nameEntry isPublic)) (pure ()) n := by
  induction n with
  | zero => rfl
  | succ n ih =>
    rw [unfolded, ← ih, declareWithin, listed, nameEntry, bind_assoc]
    refine congrArg (nextToken >>= ·) (funext fun t => ?_)
    cases t.lexeme with
    | identifier name =>
      dsimp only
      rw [bind_assoc]
      refine congrArg (intern name t.pos >>= ·) (funext fun id => ?_)
      cases isPublic <;> simp only [reduceIte, Bool.false_eq_true, bind_assoc]
    | _ => rfl

end Asm

namespace Assembler

variable {s t u : Assembler}

/-! ### Parts that read nothing -/

/-- Between `s` and `t` bytes have been added to the current segment only, and no statement has been listed. -/
structure KeepsTo (s t : Assembler) : Prop where
  listing : t.listing = s.listing
  current : t.current = s.current
  others {space : Space} : space ≠ s.current → t.segment space = s.segment space

theorem KeepsTo.trans (h : KeepsTo s t) (k : KeepsTo t u) : KeepsTo s u :=
  ⟨k.listing.trans h.listing, k.current.trans h.current,
    fun other => (k.others (h.current ▸ other)).trans (h.others other)⟩

/-- No bytes have been added at all. -/
structure Idle (s t : Assembler) : Prop where
  listing : t.listing = s.listing
  current : t.current = s.current
  segments : t.segments = s.segments

theorem Idle.keepsTo (h : Idle s t) : KeepsTo s t := ⟨h.listing, h.current, fun _ => by rw [segment, h.segments]; rfl⟩

/-- Nothing has been read between `s` and `t`, and bytes have been added to the current segment only. -/
structure Paused (s t : Assembler) : Prop where
  tokens : t.tokens = s.tokens
  lineEnded : t.lineEnded = s.lineEnded
  files : t.files = s.files
  disk : t.disk = s.disk
  keeps : KeepsTo s t

theorem Paused.trans (h : Paused s t) (k : Paused t u) : Paused s u :=
  ⟨k.tokens.trans h.tokens, k.lineEnded.trans h.lineEnded, k.files.trans h.files, k.disk.trans h.disk,
    h.keeps.trans k.keeps⟩

/-- What work on names, blocks and errors leaves as it is. -/
def untouched (s : Assembler) : TokenStream × Bool × SourceTable × Disk × Listing × Space × PerSpace Segment :=
  (s.tokens, s.lineEnded, s.files, s.disk, s.listing, s.current, s.segments)

theorem Paused.still (h : t.untouched = s.untouched) : Paused s t := by
  simp only [untouched, Prod.mk.injEq] at h
  obtain ⟨tokens, lineEnded, files, disk, listing, current, segments⟩ := h
  exact ⟨tokens, lineEnded, files, disk, Idle.keepsTo ⟨listing, current, segments⟩⟩

theorem paused_emit (s : Assembler) (b : UInt8) : Paused s (s.emit b) :=
  ⟨rfl, rfl, rfl, rfl, rfl, rfl, fun other => PerSpace.get_modify_of_ne _ _ other.symm⟩

theorem paused_emitAll (s : Assembler) (bs : Array UInt8) : Paused s (s.emitAll bs) :=
  ⟨rfl, rfl, rfl, rfl, rfl, rfl, fun other => PerSpace.get_modify_of_ne _ _ other.symm⟩

/-- The state in which a computation leaves off. -/
def leftBy {α : Type} : EStateM.Result Error Assembler α → Assembler
  | .ok _ t => t
  | .error _ t => t

theorem leftBy_bind {α β : Type} (x : Asm α) (g : α → Asm β) (s : Assembler) :
    leftBy ((x >>= g) s) = match x s with
      | .ok a t => leftBy (g a t)
      | .error _ t => t := by
  show leftBy (EStateM.bind x g s) = _
  unfold EStateM.bind
  cases x s <;> rfl

/-- An error is reported at one of the positions; only one that has no place in the source has no position. -/
structure Blames (Here : Position → Prop) (e : Error) : Prop where
  here {pos : Position} (h : e.pos = some pos) : Here pos
  general (h : e.pos = none) : e.category = .general

theorem blames_at {Here : Position → Prop} {pos : Position} (here : Here pos) (cause : Cause) :
    Blames Here (.at_ cause pos) :=
  ⟨fun h => by cases h; exact here, fun h => by cases h⟩

/-- A computation reads nothing, and its errors are reported at one of the positions. -/
structure Pauses (Here : Position → Prop) {α : Type} (x : Asm α) : Prop where
  paused (s : Assembler) : Paused s (leftBy (x s))
  blames {s t : Assembler} {e : Error} (h : x s = .error e t) : Blames Here e

section Pauses

variable {Here : Position → Prop} {α β : Type}

namespace Pauses

theorem pure (a : α) : Pauses Here (Pure.pure a : Asm α) :=
  ⟨fun _ => .still rfl, fun run => by cases run⟩

/-- Computations that read nothing, one after the other. -/
theorem bind {x : Asm α} {g : α → Asm β} (hx : Pauses Here x) (hg : ∀ a, Pauses Here (g a)) :
    Pauses Here (x >>= g) := by
  refine ⟨fun s => ?_, fun {s t e} run => ?_⟩
  · have first := hx.paused s
    rw [leftBy_bind]
    cases run : x s with
    | ok a t =>
      rw [run] at first
      exact first.trans ((hg a).paused t)
    | error e t =>
      rw [run] at first
      exact first
  · change EStateM.bind x g s = _ at run
    unfold EStateM.bind at run
    cases first : x s with
    | ok a u =>
      rw [first] at run
      exact (hg a).blames run
    | error e u =>
      rw [first] at run
      cases run
      exact hx.blames first

/-- A computation that first looks at the state. -/
theorem get {g : Assembler → Asm β} (hg : ∀ s, Pauses Here (g s)) : Pauses Here (MonadState.get >>= g) :=
  ⟨fun s => (hg s).paused s, fun {s _ _} run => (hg s).blames run⟩

theorem update {f : Assembler → Assembler} (h : ∀ s, Paused s (f s)) : Pauses Here (modify f : Asm Unit) :=
  ⟨h, fun run => by cases run⟩

theorem fail {pos : Position} (here : Here pos) (cause : Cause) : Pauses Here (Asm.fail cause pos : Asm α) := by
  refine ⟨fun s => .still rfl, fun {s t e} run => ?_⟩
  cases run
  exact blames_at here cause

/-- What leaves the state as it is, and fails at the position, pauses. -/
theorem of_eq {pos : Position} (here : Here pos) {x : Asm α}
    (h : ∀ s, (∃ a t, x s = .ok a t ∧ Paused s t) ∨ ∃ cause t, x s = .error (.at_ cause pos) t ∧ Paused s t) :
    Pauses Here x := by
  refine ⟨fun s => ?_, fun {s t e} run => ?_⟩
  · obtain ⟨a, t, run, paused⟩ | ⟨cause, t, run, paused⟩ := h s <;> rw [run] <;> exact paused
  · obtain ⟨a, t, ran, -⟩ | ⟨cause, t, ran, -⟩ := h s
    · cases ran.symm.trans run
    · cases ran.symm.trans run
      exact blames_at here cause

end Pauses

/-! ### Writing -/

theorem paused_emitByteOperand (pos : Position) (s : Assembler) (a : Address) : Paused s (s.emitByteOperand pos a) := by
  obtain ⟨use, d, bs, same, -⟩ := s.emitByteOperand_eq pos a
  rw [same]
  exact (paused_emitAll s bs).trans (.still rfl)

theorem paused_emitWord (s : Assembler) (a : Address) : Paused s (s.emitWord a) := by
  obtain ⟨use, d, bs, same, -⟩ := s.emitWord_eq a
  rw [same]
  exact (paused_emitAll s bs).trans (.still rfl)

theorem paused_emitPointer (pos : Position) (s : Assembler) (a : Address) : Paused s (s.emitPointer pos a) := by
  unfold emitPointer
  split
  · have reported : Paused s ((s.log (.operand s.here a)).record (.at_ (.byteAsPointer a) pos)) := .still rfl
    exact reported.trans (paused_emitWord _ _)
  · exact paused_emitWord s a

theorem pauses_emitShort (op : UInt8) (offset : Int) : Pauses Here (Asm.emitShort op offset) :=
  .update fun s => (paused_emit s op).trans (paused_emit _ _)

theorem pauses_emitJump (target : Address) (pos : Position) : Pauses Here (Asm.emitJump target pos) :=
  .update fun s => (paused_emit s Opcode.jump).trans (paused_emitPointer pos _ target)

theorem pauses_emitAround (op : UInt8) (target : Address) (pos : Position) :
    Pauses Here (Asm.emitAround op target pos) :=
  .bind (.update fun s => (paused_emit s _).trans (paused_emit _ 3)) fun _ => pauses_emitJump target pos

variable {pos : Position} (here : Here pos)

include here

theorem pauses_reach (target : Address) (short long : Nat) : Pauses Here (Asm.reach pos target short long) := by
  refine .of_eq here fun s => ?_
  unfold Asm.reach Assembler.estimate
  dsimp only
  split
  · exact .inl ⟨_, _, rfl, .still rfl⟩
  · rename_i e failed
    split at failed
    · cases failed
    · split at failed
      · cases failed
        exact .inr ⟨_, _, rfl, .still rfl⟩
      · split at failed <;> cases failed

theorem pauses_branch (op : UInt8) (target : Address) : Pauses Here (Asm.branch op target pos) := by
  refine .get fun s => .bind (pauses_reach here target _ _) fun decided => ?_
  split
  · exact pauses_emitShort op _
  · split
    · split
      · exact .bind (.update fun _ => .still rfl) fun _ => pauses_emitShort op 0
      · exact .bind (.pure ()) fun _ => pauses_emitShort op 0
    · split
      · exact pauses_emitJump target pos
      · exact pauses_emitAround op target pos

theorem pauses_branchIf (c : Condition) (target : Address) : Pauses Here (Asm.branchIf c target pos) := by
  refine .bind (pauses_reach here target 2 5) fun decided => ?_
  split
  · exact pauses_emitShort _ _
  · exact pauses_emitAround _ target pos

theorem pauses_jump (target : Address) : Pauses Here (Asm.jump target pos) := by
  refine .get fun s => ?_
  split
  · refine .bind (pauses_reach here target 2 3) fun decided => ?_
    split
    · exact pauses_emitShort _ _
    · exact pauses_emitJump target pos
  · exact pauses_emitJump target pos

section Instruction

variable (m : Mnemonic)

theorem pauses_emitOpcode (mode : Mode) : Pauses Here (Asm.emitOpcode m mode pos) := by
  refine .of_eq here fun s => ?_
  unfold Asm.emitOpcode
  split
  · exact .inl ⟨_, _, rfl, paused_emit s _⟩
  · exact .inr ⟨_, _, rfl, .still rfl⟩

theorem pauses_emitWith (mode : Mode) {write : Assembler → Assembler} (h : ∀ s, Paused s (write s)) :
    Pauses Here (Asm.emitWith m mode pos write) :=
  .bind (pauses_emitOpcode here m mode) fun _ => .update h

theorem pauses_emitWithByte (mode : Mode) (a : Address) : Pauses Here (Asm.emitWithByte m mode a pos) :=
  pauses_emitWith here m mode fun s => (paused_emitByteOperand pos s a).trans (.still rfl)

theorem pauses_emitWithPointer (mode : Mode) (a : Address) : Pauses Here (Asm.emitWithPointer m mode a pos) :=
  pauses_emitWith here m mode fun s => paused_emitPointer pos s a

theorem pauses_emitDirect (a : Address) (index : Index) : Pauses Here (Asm.emitDirect m a index pos) := by
  refine .get fun s => ?_
  dsimp only
  split
  · exact pauses_emitWithByte here m _ a
  · split
    · exact pauses_emitWithPointer here m _ a
    · exact pauses_emitWith here m _ fun s => paused_emitWord s a

/-- Writing an instruction reads nothing and blames the position that it is given. -/
theorem pauses_encode (o : Operand Address) : Pauses Here (Asm.encode m o pos) := by
  refine .get fun s => ?_
  dsimp only
  split
  · split
    · exact pauses_emitOpcode here m _
    · split
      · exact pauses_emitOpcode here m _
      · exact .fail here _
  · split
    · exact pauses_emitOpcode here m _
    · exact .fail here _
  · exact pauses_emitWithByte here m _ _
  · split
    · exact pauses_branch here _ _
    · exact pauses_emitDirect here m _ _
  · exact pauses_emitDirect here m _ _
  · split
    · exact pauses_emitWithPointer here m _ _
    · exact pauses_emitWithByte here m _ _
  · split
    · exact pauses_emitWithPointer here m _ _
    · exact pauses_emitWithByte here m _ _
  · exact pauses_emitWithByte here m _ _

end Instruction

/-! ### Names -/

theorem pauses_intern (name : String) : Pauses Here (Asm.intern name pos) := by
  refine .of_eq here fun s => ?_
  unfold Asm.intern
  split
  · exact .inl ⟨_, _, rfl, .still rfl⟩
  · exact .inr ⟨_, _, rfl, .still rfl⟩

theorem pauses_resolve (name : String) : Pauses Here (Asm.resolve name pos) := by
  refine .bind (pauses_intern here name) fun id => .get fun s => ?_
  refine .bind (.update fun _ => .still rfl) fun _ => .get fun t => ?_
  split
  · exact .bind (.update fun _ => .still rfl) fun _ => .pure _
  · exact .pure _

theorem pauses_defineId (id : SymbolId) (name : String) (a : Address) : Pauses Here (Asm.defineId id name a pos) := by
  refine .of_eq here fun s => ?_
  obtain ⟨-, run⟩ | ⟨-, run⟩ := defineId_eq id name a pos s
  · exact .inr ⟨_, _, run, .still rfl⟩
  · exact .inl ⟨_, _, run, .still rfl⟩

theorem pauses_defineName (name : String) (a : Address) : Pauses Here (Asm.defineName name a pos) :=
  .bind (pauses_intern here name) fun id => pauses_defineId here id name a

theorem pauses_placeName (name : String) : Pauses Here (Asm.placeName name pos) :=
  .get fun s => .bind (pauses_defineName here name s.here) fun _ => .update fun _ => .still rfl

/-! ### Blocks -/

omit here in
theorem pauses_newLabel : Pauses Here Asm.newLabel := by
  refine ⟨fun s => ?_, fun {s t e} run => ?_⟩
  · unfold Asm.newLabel
    split <;> exact .still rfl
  · unfold Asm.newLabel at run
    split at run <;> cases run
    exact ⟨fun none => (by cases none), fun _ => rfl⟩

omit here in
theorem pauses_labelAddress (id : SymbolId) : Pauses Here (Asm.labelAddress id) := .get fun _ => .pure _

omit here in
theorem pauses_setTop (b : Block) : Pauses Here (Asm.setTop b) := .update fun _ => .still rfl

omit here in
theorem pauses_openBlock (b : Block) (pos : Position) : Pauses Here (Asm.openBlock b pos) :=
  .update fun _ => .still rfl

theorem pauses_placeLabel (id : SymbolId) : Pauses Here (Asm.placeLabel id pos) :=
  .get fun s => pauses_defineId here id "" s.here

theorem pauses_placeLabels (ids : List SymbolId) : Pauses Here (Asm.placeLabels pos ids) := by
  induction ids with
  | nil => exact .pure ()
  | cons id ids ih => exact .bind (pauses_placeLabel here id) fun _ => ih

theorem pauses_closeFrom (wanted : Opener) (keyword : String) (blocks : BlockStack) :
    Pauses Here (Asm.closeFrom pos wanted keyword blocks) := by
  induction blocks with
  | nil => exact .fail here _
  | cons first rest ih =>
    obtain ⟨b, opened⟩ := first
    refine .bind (.update fun _ => .still rfl) fun _ => ?_
    split
    · exact .pure _
    · refine .bind (.update fun _ => .still rfl) fun _ => ?_
      exact .bind (pauses_placeLabels here b.pending) fun _ => ih

theorem pauses_closeBlock (wanted : Opener) (keyword : String) : Pauses Here (Asm.closeBlock pos wanted keyword) := by
  refine .get fun s => ?_
  dsimp only
  split
  · exact pauses_closeFrom here wanted keyword _
  · exact .fail here _

theorem pauses_elsePart : Pauses Here (Asm.elsePart pos) := by
  refine .get fun s => ?_
  split
  · refine .bind (pauses_setTop _) fun _ => .bind (pauses_labelAddress _) fun target => ?_
    exact .bind (pauses_jump here target) fun _ => pauses_placeLabel here _
  · exact .fail here _
  · exact .fail here _

theorem pauses_endIf : Pauses Here (Asm.endIf pos) :=
  .bind (pauses_closeBlock here .ifBlock "ENDIF") fun b => pauses_placeLabels here b.pending

theorem pauses_beginDo : Pauses Here (Asm.beginDo pos) := by
  refine .bind pauses_newLabel fun beginId => .bind pauses_newLabel fun repeatId => ?_
  refine .bind pauses_newLabel fun endId => .bind (pauses_placeLabel here repeatId) fun _ => ?_
  exact pauses_openBlock _ pos

theorem pauses_endLoop : Pauses Here (Asm.endLoop pos) := by
  refine .bind (pauses_closeBlock here .doBlock "WEND") fun b => ?_
  cases b with
  | loop beginId repeatId endId tested =>
    refine .bind (pauses_labelAddress repeatId) fun target => .bind (pauses_jump here target) fun _ => ?_
    exact pauses_placeLabels here _
  | cond elseId endId => exact pauses_placeLabels here _

end Pauses

/-! ### Parts that read -/

/-- A property that the parts of statements have and that what is put together from them keeps. -/
structure ClosedWork (P : ∀ {γ : Type}, Asm γ → Prop) (After : ∀ {γ : Type}, Token → Asm γ → Prop)
    (Here : Position → Prop) : Prop extends Expression.Closed (σ := Assembler) (α := Address) P After Here where
  /-- A computation that first looks at the state. -/
  get {γ : Type} {g : Assembler → Asm γ} (hg : ∀ s, P (g s)) : P (MonadState.get >>= g)
  pause {γ : Type} {x : Asm γ} (hx : Pauses Here x) : P x

namespace ClosedWork

variable {P : ∀ {γ : Type}, Asm γ → Prop} {After : ∀ {γ : Type}, Token → Asm γ → Prop} {Here : Position → Prop}
  (closed : ClosedWork P After Here)

include closed

theorem update {f : Assembler → Assembler} (h : ∀ s, Paused s (f s)) : P (modify f : Asm Unit) :=
  closed.pause (.update h)

theorem expression : P Asm.expression := closed.read

theorem withBudget {γ : Type} {g : Nat → Asm γ} (hg : ∀ n, P (g n)) : P (Asm.budget >>= g) :=
  closed.bind (closed.get fun _ => closed.pure _) hg

/-- The position of a token is one at which errors are reported. -/
theorem nextPosition {γ : Type} {g : Position → Asm γ} (hg : ∀ pos, Here pos → P (g pos)) :
    P (Asm.nextPosition >>= g) := by
  rw [Asm.nextPosition, bind_assoc]
  refine closed.next fun t here => ?_
  rw [bind_assoc]
  exact closed.unread t (hg t.pos here)

/-- A list goes on after a comma. -/
theorem listed {entry : Asm Unit} (h : P entry) (n : Nat) : P (unfolded (Asm.listed entry) (Pure.pure ()) n) := by
  induction n with
  | zero => exact closed.pure ()
  | succ n ih =>
    refine closed.bind h fun _ => closed.bind closed.comma fun more => ?_
    split
    · exact ih
    · exact closed.pure ()

theorem byteEntry : P Asm.byteEntry := by
  refine closed.next fun t _ => ?_
  split
  · exact closed.after (Token.inside_of_lexeme ‹_› rfl) (closed.update fun s => paused_emitAll s _)
  · refine closed.unread t (closed.bind closed.expression fun value => ?_)
    exact closed.update fun s => paused_emitByteOperand t.pos s value

theorem wordEntry : P Asm.wordEntry := by
  refine closed.next fun t _ => closed.unread t (closed.bind closed.expression fun value => ?_)
  exact closed.update fun s => paused_emitWord s value

theorem nameEntry (isPublic : Bool) : P (Asm.nameEntry isPublic) := by
  refine closed.next fun t here => ?_
  split
  · refine closed.after (Token.inside_of_lexeme ‹_› rfl) (closed.pause (.bind (pauses_intern here _) fun id => ?_))
    split
    · exact .bind (.update fun _ => .still rfl) fun _ => .update fun _ => .still rfl
    · exact .bind (pauses_defineId here _ _ _) fun _ => .update fun _ => .still rfl
  · exact closed.fail t _ here

theorem defineBytes : P Asm.defineBytes :=
  closed.withBudget fun n => Asm.bytesWithin_eq n ▸ closed.listed closed.byteEntry n

theorem defineWords : P Asm.defineWords :=
  closed.withBudget fun n => Asm.wordsWithin_eq n ▸ closed.listed closed.wordEntry n

theorem declare (isPublic : Bool) : P (Asm.declare isPublic) :=
  closed.withBudget fun n => Asm.declareWithin_eq isPublic n ▸ closed.listed (closed.nameEntry isPublic) n

theorem condition : P Asm.condition := by
  refine closed.next fun t here => ?_
  split
  · obtain ⟨name, found, -⟩ := Option.bind_eq_some_iff.1 ‹_›
    exact closed.after (Token.inside_of_identifier? found) (closed.pure _)
  · exact closed.fail t _ here

variable {pos : Position} (here : Here pos)

include here

theorem placeName (name : String) : P (Asm.placeName name pos) := closed.pause (pauses_placeName here name)

theorem equate (name : String) : P (Asm.equate name pos) := by
  refine closed.get fun s => closed.bind closed.expression fun value => closed.pause ?_
  exact .bind (pauses_defineName here name value) fun _ => .update fun _ => .still rfl

theorem instruction (m : Mnemonic) : P (Asm.instruction m pos) :=
  closed.bind closed.operand fun o => closed.pause (pauses_encode here m o)

/-- Nothing follows a failure. -/
theorem failThen {γ δ : Type} (cause : Cause) (g : γ → Asm δ) : P (Asm.fail cause pos >>= g) := by
  refine closed.pause ⟨fun s => .still rfl, fun {s t e} run => ?_⟩
  cases run
  exact blames_at here cause

theorem reserve : P (Asm.reserve pos) := by
  have filled (count : Nat) (fill : UInt8) : P (modify (·.emitAll (Array.replicate count fill)) : Asm Unit) :=
    closed.update fun s => paused_emitAll s _
  refine closed.nextPosition fun sizePos there => closed.bind closed.expression fun size => ?_
  dsimp only
  split
  · refine closed.bind (closed.pure _) fun count => closed.bind closed.comma fun more => ?_
    split
    · refine closed.bind closed.expression fun value => ?_
      split
      · exact closed.failThen here _ _
      · exact filled _ _
    · exact filled _ _
  · exact closed.failThen there _ _
  · exact closed.failThen here _ _

theorem beginIf : P (Asm.beginIf pos) := by
  refine closed.bind closed.condition fun c => closed.pause ?_
  refine .bind pauses_newLabel fun elseId => .bind pauses_newLabel fun endId => ?_
  refine .bind (pauses_openBlock _ pos) fun _ => .bind (pauses_labelAddress elseId) fun target => ?_
  exact pauses_branchIf here _ target

theorem elseIf : P (Asm.elseIf pos) := by
  refine closed.bind closed.condition fun c => closed.pause (.get fun s => ?_)
  split
  · refine .bind pauses_newLabel fun nextElse => .bind (pauses_setTop _) fun _ => ?_
    refine .bind (pauses_labelAddress _) fun target => .bind (pauses_jump here target) fun _ => ?_
    refine .bind (pauses_placeLabel here _) fun _ => .bind (pauses_labelAddress nextElse) fun target => ?_
    exact pauses_branchIf here _ target
  · exact .fail here _
  · exact .fail here _

end ClosedWork

end Assembler

end Asm65
