import Asm65.Proofs.RunNames
import Asm65.Proofs.SourceText

/-!
# Statements as pieces of code

A pass sees the layout as a `draft` of its state. Each operation of the assembler that a plain statement uses goes on
with the draft by the pieces that stand for it: `Draws` says so, `Continues` if the open blocks stay, `Puts` if also
nothing is read, `Adds` if there are only bytes. Operands here are single tokens, which the expression parser reads
without looking anything else up.
-/

namespace Asm65
set_option autoImplicit false

namespace Assembler

variable {s t u : Assembler} {ps qs : List Piece} {token : Token} {rest : List Token}

/-! ### Layout -/

/-- The layout as far as a pass has come. -/
def draft (s : Assembler) : Draft :=
  ⟨(s.segment .code).size, fun id => (s.symbols.get? id).map fun sym => (sym.address, sym.pass), s.reachLog⟩

@[simp] theorem size_draft (s : Assembler) : s.draft.size = (s.segment .code).size := rfl

theorem address_draft (s : Assembler) (id : SymbolId) : s.draft.address id = s.symbols.address id := by
  simp only [Draft.address, draft, SymbolTable.address]
  cases s.symbols.get? id <;> rfl

theorem here_draft (code : s.current = .code) : s.here = .inSpace .code s.draft.here := by
  rw [here, code]
  rfl

/-- These pieces are laid out. -/
structure Draws (s : Assembler) (ps : List Piece) (t : Assembler) : Prop where
  draft : ps.foldlM (Piece.lay s.lastReachLog s.pass) s.draft = some t.draft
  cpu : t.cpu = s.cpu
  options : t.options = s.options
  current : t.current = s.current
  pass : t.pass = s.pass
  lastReachLog : t.lastReachLog = s.lastReachLog
  identifiers {name : String} {id : SymbolId} : s.identifiers.ids[name]? = some id → t.identifiers.ids[name]? = some id

/-- The blocks as the pieces to come see them. -/
def frame (s : Assembler) : Frame := ⟨s.blocks, s.nextLabel⟩

theorem Draws.refl (s : Assembler) : Draws s [] s := ⟨rfl, rfl, rfl, rfl, rfl, rfl, id⟩

theorem Draws.trans (h : Draws s ps t) (k : Draws t qs u) : Draws s (ps ++ qs) u where
  draft := by
    have after := k.draft
    rw [h.lastReachLog, h.pass] at after
    rw [List.foldlM_append, h.draft]
    exact after
  cpu := k.cpu.trans h.cpu
  options := k.options.trans h.options
  current := k.current.trans h.current
  pass := k.pass.trans h.pass
  lastReachLog := k.lastReachLog.trans h.lastReachLog
  identifiers := k.identifiers ∘ h.identifiers

theorem Draws.same (h : Draws s [] t) : t.draft = s.draft := (Option.some.inj h.draft).symm

theorem Draws.address (h : Draws s [] t) (id : SymbolId) : t.symbols.address id = s.symbols.address id := by
  rw [← address_draft, h.same, address_draft]

/-- These pieces are laid out, within the same blocks. -/
structure Continues (s : Assembler) (ps : List Piece) (t : Assembler) : Prop extends Draws s ps t where
  blocks : t.blocks = s.blocks
  nextLabel : t.nextLabel = s.nextLabel

theorem Continues.refl (s : Assembler) : Continues s [] s := ⟨.refl s, rfl, rfl⟩

theorem Continues.trans (h : Continues s ps t) (k : Continues t qs u) : Continues s (ps ++ qs) u :=
  ⟨h.toDraws.trans k.toDraws, k.blocks.trans h.blocks, k.nextLabel.trans h.nextLabel⟩

/-- These pieces are laid out, within the same blocks, and nothing is read. -/
structure Puts (s : Assembler) (ps : List Piece) (t : Assembler) : Prop extends Continues s ps t where
  tokens : t.tokens = s.tokens

theorem Puts.trans (h : Puts s ps t) (k : Puts t qs u) : Puts s (ps ++ qs) u :=
  ⟨h.toContinues.trans k.toContinues, k.tokens.trans h.tokens⟩

theorem Continues.frame (h : Continues s ps t) : t.frame = s.frame := by
  rw [Assembler.frame, h.blocks, h.nextLabel]
  rfl

/-! ### Tokens -/

theorem of_nextToken {a : Token} (offers : s.tokens.Offers (token :: rest)) (run : Asm.nextToken s = .ok a t) :
    a = token ∧ t.tokens.Offers rest ∧ (Asm.putBack token t).tokens.Offers (token :: rest) ∧ Continues s [] t := by
  obtain ⟨tokens, read, after, back⟩ := offers.next
  unfold Asm.nextToken at run
  rw [read] at run
  cases run
  exact ⟨rfl, after, back, ⟨rfl, rfl, rfl, rfl, rfl, rfl, id⟩, rfl, rfl⟩

theorem continues_putBack (s : Assembler) (token : Token) : Continues s [] (Asm.putBack token s) :=
  ⟨⟨rfl, rfl, rfl, rfl, rfl, rfl, id⟩, rfl, rfl⟩

/-! ### Bytes -/

/-- A state without what was written. -/
def unwritten (s : Assembler) : Assembler :=
  { s with segments := .const .empty, uses := ∅, diagnostics := {}, provisional := #[], trace := [] }

theorem unwritten_emitByteOperand (s : Assembler) (pos : Position) (a : Address) :
    (s.emitByteOperand pos a).unwritten = s.unwritten := by
  obtain ⟨use, d, bs, same, -⟩ := s.emitByteOperand_eq pos a
  rw [same]
  rfl

theorem unwritten_emitWord (s : Assembler) (a : Address) : (s.emitWord a).unwritten = s.unwritten := by
  obtain ⟨use, d, bs, same, -⟩ := s.emitWord_eq a
  rw [same]
  rfl

theorem unwritten_emitPointer (s : Assembler) (pos : Position) (a : Address) :
    (s.emitPointer pos a).unwritten = s.unwritten := by
  unfold emitPointer
  split
  · exact unwritten_emitWord _ _
  · exact unwritten_emitWord s a

/-- So many bytes are written, and nothing else happens. -/
structure Adds (n : Nat) (s t : Assembler) : Prop extends Emits n s t where
  same : t.unwritten = s.unwritten

theorem Adds.keeps {n : Nat} {β : Type} (h : Adds n s t) (f : Assembler → β) : f t.unwritten = f s.unwritten :=
  congrArg f h.same

/-- The layout after a number of bytes. -/
theorem Adds.draft {n : Nat} (h : Adds n s t) (code : s.current = .code) : t.draft = s.draft.skip n := by
  have size := h.size
  rw [code] at size
  have symbols : t.symbols = s.symbols := h.keeps Assembler.symbols
  have log : t.reachLog = s.reachLog := h.keeps Assembler.reachLog
  simp only [Assembler.draft, Draft.skip, size, symbols, log]

theorem Adds.puts {n : Nat} (h : Adds n s t) (code : s.current = .code) : Puts s [.fixed n] t where
  draft := by
    rw [h.draft code]
    rfl
  cpu := h.keeps Assembler.cpu
  options := h.keeps Assembler.options
  current := h.current
  pass := h.keeps Assembler.pass
  lastReachLog := h.keeps Assembler.lastReachLog
  identifiers := by
    rw [show t.identifiers = s.identifiers from h.keeps Assembler.identifiers]
    exact id
  blocks := h.keeps Assembler.blocks
  nextLabel := h.keeps Assembler.nextLabel
  tokens := h.keeps Assembler.tokens

variable {pos : Position} {id : SymbolId} {name : String}

theorem adds_emitShort {op : UInt8} {k : Int} (run : Asm.emitShort op k s = .ok () t) : Adds 2 s t := by
  refine ⟨emits_emitShort run, ?_⟩
  cases run
  rfl

theorem adds_emitJump {target : Address} (run : Asm.emitJump target pos s = .ok () t) : Adds 3 s t := by
  refine ⟨emits_emitJump run, ?_⟩
  cases run
  exact unwritten_emitPointer _ pos target

theorem adds_emitAround {op : UInt8} {target : Address} (run : Asm.emitAround op target pos s = .ok () t) :
    Adds 5 s t := by
  refine ⟨emits_emitAround run, ?_⟩
  obtain ⟨_, _, around, rest⟩ := exists_of_bind_eq_ok run
  cases around
  exact (adds_emitJump rest).same

theorem adds_emitOpcode {m : Mnemonic} {mode : Mode} (run : Asm.emitOpcode m mode pos s = .ok () t) : Adds 1 s t := by
  refine ⟨emits_emitOpcode run, ?_⟩
  unfold Asm.emitOpcode at run
  split at run <;> cases run
  rfl

/-- On this processor the jump of a block is always an absolute one. -/
theorem adds_jump {target : Address} (cpu : s.cpu = .mos6502) (run : Asm.jump target pos s = .ok () t) :
    Adds 3 s t := by
  obtain ⟨_, _, asked, run⟩ := exists_of_bind_eq_ok run
  cases asked
  have never : Cpu.mos6502.hasBranchAlways = false := by decide
  rw [cpu, never] at run
  exact adds_emitJump run

/-! ### Branches -/

/-- A branch is as long as the layout has it. -/
theorem of_estimate {target : Address} {long length : Nat} {r : Reach} (code : s.current = .code)
    (h : s.estimate pos target 2 long s.reachLog.size = (.ok r, length)) :
    length = s.draft.branchSize s.lastReachLog pos target long ∧ branchLength long r = length := by
  refine ⟨?_, (length_of_estimate h).symm⟩
  unfold estimate at h
  unfold Draft.branchSize Draft.fits
  split at h
  · rename_i unknown
    cases h
    simp [unknown]
  · rename_i known
    split at h
    · cases h
    · have here : s.here.value = s.draft.here := by rw [here_draft code]; rfl
      have log : s.draft.log = s.reachLog := rfl
      dsimp only at h
      rw [here] at h
      split at h
      · rename_i short
        cases h
        simp [known, log, short]
      · rename_i far
        cases h
        simp [known, log, far]

/-- Deciding about a branch and writing it. -/
theorem puts_reach {long : Nat} {write : Reach → Asm Unit} (code : s.current = .code)
    (written : ∀ r u t, write r u = .ok () t → Adds (branchLength long r) u t)
    (run : (Asm.reach pos (s.symbols.address id) 2 long >>= write) s = .ok () t) : Puts s [.branch pos id long] t := by
  obtain ⟨r, u, decides, rest⟩ := exists_of_bind_eq_ok run
  obtain ⟨length, decided, rfl⟩ := exists_of_reach decides
  obtain ⟨same, form⟩ := of_estimate code decided
  have adds := written r _ t rest
  have puts := adds.puts code
  refine ⟨⟨⟨?_, puts.cpu, puts.options, puts.current, puts.pass, puts.lastReachLog, puts.identifiers⟩, puts.blocks,
    puts.nextLabel⟩, puts.tokens⟩
  show some (s.draft.branch s.lastReachLog pos (s.draft.address id) long) = some t.draft
  rw [adds.draft code, address_draft, form, same]
  unfold Draft.branch
  rw [← same, here_draft code]
  rfl

theorem puts_branchIf {c : Condition} (code : s.current = .code)
    (run : Asm.branchIf c (s.symbols.address id) pos s = .ok () t) : Puts s [.branch pos id 5] t := by
  refine puts_reach code (fun r u t run => ?_) run
  cases r with
  | short k => exact adds_emitShort run
  | far | unknown => exact adds_emitAround run

theorem adds_longForm {o : Options} {op : UInt8} {target : Address} {short : Asm Unit}
    (two : short s = .ok () t → Adds 2 s t)
    (run : (if !o.longBranches then short else if op == Opcode.branchAlways then Asm.emitJump target pos
      else Asm.emitAround op target pos) s = .ok () t) : Adds (longForm o op) s t := by
  refine ⟨emits_longForm (fun run => (two run).toEmits) run, ?_⟩
  split at run
  · exact (two run).same
  · split at run
    · exact (adds_emitJump run).same
    · exact (adds_emitAround run).same

theorem puts_branch {op : UInt8} (code : s.current = .code)
    (run : Asm.branch op (s.symbols.address id) pos s = .ok () t) :
    Puts s [.branch pos id (longForm s.options op)] t := by
  obtain ⟨_, _, asked, run⟩ := exists_of_bind_eq_ok run
  cases asked
  refine puts_reach code (fun r u t run => ?_) run
  cases r with
  | short k => exact adds_emitShort run
  | far k =>
    refine adds_longForm (fun run => ?_) run
    obtain ⟨_, v, held, run⟩ := exists_of_bind_eq_ok run
    cases held
    have adds := adds_emitShort run
    exact ⟨adds.toEmits.of_eq rfl rfl, adds.same⟩
  | unknown => exact adds_longForm adds_emitShort run

/-! ### Labels -/

/-- A definition that is not refused is the placing of a label in the layout. -/
theorem draft_assign (code : s.current = .code) (new : (s.symbols.define id name s.here s.pass).1 ≠ .duplicate) :
    s.draft.place s.pass id = some (s.assign id name s.here).draft := by
  have free : (s.draft.table id).map (·.2) ≠ some s.pass := by
    intro taken
    refine new ((SymbolTable.define_eq_duplicate_iff ..).2 ?_)
    simp only [draft, Option.map_map, Option.map_eq_some_iff] at taken
    exact taken
  rw [Draft.place, if_neg free, here_draft code]
  refine congrArg some (congrArg (Draft.mk _ · _) (funext fun other => ?_))
  show _ = ((s.symbols.define id name _ s.pass).2.get? other).map _
  rw [here_draft code] at new
  by_cases same : other = id
  · rw [same, SymbolTable.get?_define_self _ _ _ _ _ new, Function.update_self]
    rfl
  · rw [SymbolTable.get?_define_of_ne _ _ _ _ (Ne.symm same), Function.update_of_ne same]
    rfl

theorem puts_defineId (code : s.current = .code) (run : Asm.defineId id name s.here pos s = .ok () t) :
    Puts s [.label id] t := by
  obtain ⟨-, failed⟩ | ⟨new, done⟩ := defineId_eq id name s.here pos s
  · cases failed.symm.trans run
  · cases done.symm.trans run
    refine ⟨⟨⟨?_, rfl, rfl, rfl, rfl, rfl, fun h => h⟩, rfl, rfl⟩, rfl⟩
    show (s.draft.place s.pass id).bind some = _
    rw [draft_assign code new]
    rfl

theorem puts_placeLabel (code : s.current = .code) (run : Asm.placeLabel id pos s = .ok () t) :
    Puts s [.label id] t := by
  obtain ⟨_, _, got, run⟩ := exists_of_bind_eq_ok run
  cases got
  exact puts_defineId code run

theorem puts_placeLabels {ids : List SymbolId} (code : s.current = .code)
    (run : Asm.placeLabels pos ids s = .ok () t) : Puts s (ids.map .label) t := by
  induction ids generalizing s with
  | nil =>
    cases run
    exact ⟨.refl _, rfl⟩
  | cons id ids ih =>
    obtain ⟨_, u, one, run⟩ := exists_of_bind_eq_ok run
    have first := puts_placeLabel code one
    exact first.trans (ih (first.current.trans code) run)

/-- The names of a program have these numbers, as far as they are known. -/
def NumbersAs (number : String → SymbolId) (s : Assembler) : Prop :=
  ∀ ⦃name id⦄, s.identifiers.ids[name]? = some id → number name = id

variable {number : String → SymbolId}

theorem of_intern (run : Asm.intern name pos s = .ok id t) :
    Puts s [] t ∧ t.here = s.here ∧ t.identifiers.ids[name]? = some id := by
  unfold Asm.intern at run
  split at run
  · rename_i numbered
    cases run
    refine ⟨⟨⟨⟨rfl, rfl, rfl, rfl, rfl, rfl, ?_⟩, rfl, rfl⟩, rfl⟩, rfl, IdentifierTable.getElem?_of_intern numbered⟩
    exact IdentifierTable.getElem?_intern_of_some numbered
  · cases run

theorem of_placeName (code : s.current = .code) (run : Asm.placeName name pos s = .ok () t) :
    ∃ id, t.identifiers.ids[name]? = some id ∧ Puts s [.label id] t := by
  obtain ⟨_, _, got, run⟩ := exists_of_bind_eq_ok run
  cases got
  obtain ⟨_, v, defines, logs⟩ := exists_of_bind_eq_ok run
  obtain ⟨id, u, interns, defines⟩ := exists_of_bind_eq_ok defines
  cases logs
  obtain ⟨interned, here, known⟩ := of_intern interns
  rw [← here] at defines
  have defined := puts_defineId (interned.current.trans code) defines
  have whole := interned.trans defined
  exact ⟨id, defined.identifiers known, ⟨⟨whole.draft, whole.cpu, whole.options, whole.current, whole.pass,
    whole.lastReachLog, whole.identifiers⟩, whole.blocks, whole.nextLabel⟩, whole.tokens⟩

/-! ### Operands -/

theorem of_comma {b : Bool} (offers : s.tokens.Offers (token :: rest)) (run : Asm.comma s = .ok b t) :
    b = token.isPunct .comma ∧ t.tokens.Offers (if b then rest else token :: rest) ∧ Continues s [] t := by
  obtain ⟨_, u, read, run⟩ := exists_of_bind_eq_ok run
  obtain ⟨rfl, after, back, continues⟩ := of_nextToken offers read
  split at run
  · rename_i is
    cases run
    exact ⟨is.symm, after, continues⟩
  · rename_i other
    cases run
    exact ⟨(Bool.not_eq_true _ ▸ other).symm, back, continues.trans (continues_putBack u _)⟩

theorem puts_lookUp (s : Assembler) (id : SymbolId) (name : String) (pos : Position) :
    Puts s [] (s.lookUp id name pos) := by
  rw [lookUp_eq]
  exact ⟨⟨⟨rfl, rfl, rfl, rfl, rfl, rfl, fun h => h⟩, rfl, rfl⟩, rfl⟩

theorem of_resolve {a : Address} (run : Asm.resolve name pos s = .ok a t) :
    ∃ id, t.identifiers.ids[name]? = some id ∧ a = t.symbols.address id ∧ Puts s [] t := by
  rw [resolve_eq] at run
  cases interns : Asm.intern name pos s with
  | error e u =>
    rw [interns] at run
    cases run
  | ok id u =>
    rw [interns] at run
    cases run
    obtain ⟨interned, -, known⟩ := of_intern interns
    have looked := puts_lookUp u id name pos
    exact ⟨id, looked.identifiers known, (looked.address id).symm, interned.trans looked⟩

/-- A token that is an expression by itself. -/
def leaf? (token : Token) : Option (Asm Address) :=
  match token.lexeme with
  | .number v => some (pure (.constant (.ofNat v)))
  | .identifier name => some (Asm.resolve name token.pos)
  | _ => none

theorem puts_leaf {a : Address} {x : Asm Address} (leaf : leaf? token = some x) (run : x s = .ok a t) :
    Puts s [] t := by
  unfold leaf? at leaf
  split at leaf <;> cases leaf
  · cases run
    exact ⟨.refl _, rfl⟩
  · obtain ⟨-, -, -, resolved⟩ := of_resolve run
    exact resolved

/-- The operand of an expression of one token. -/
theorem of_unary {n : Nat} {a : Address} {x : Asm Address} (leaf : leaf? token = some x)
    (offers : s.tokens.Offers (token :: rest)) (run : (Expression.unary (n + 2) : Asm Address) s = .ok a t) :
    ∃ u, Continues s [] u ∧ u.tokens.Offers rest ∧ x u = .ok a t := by
  rw [Expression.unary] at run
  obtain ⟨token, u, read, sign⟩ := exists_of_bind_eq_ok run
  obtain ⟨rfl, -, back, continues⟩ := of_nextToken offers read
  unfold leaf? at leaf
  split at leaf <;> cases leaf <;> rename_i lexeme
  all_goals
    simp only [lexeme] at sign
    obtain ⟨_, _, put, primary⟩ := exists_of_bind_eq_ok sign
    cases put
    rw [Expression.primary] at primary
    obtain ⟨again, v, rereads, value⟩ := exists_of_bind_eq_ok primary
    obtain ⟨same, after, -, continues'⟩ := of_nextToken back rereads
    rw [same] at value
    simp only [lexeme] at value
    exact ⟨v, (continues.trans (continues_putBack u token)).trans continues', after, value⟩

/-- An expression of one token. -/
theorem of_expression {after : Token} {a : Address} {x : Asm Address} (leaf : leaf? token = some x)
    (plain : Expression.operator? after.lexeme = none) (offers : s.tokens.Offers (token :: after :: rest))
    (run : Asm.expression s = .ok a t) :
    ∃ u v, Continues s [] u ∧ x u = .ok a v ∧ Continues v [] t ∧ t.tokens.Offers (after :: rest) := by
  obtain ⟨_, _, got, run⟩ := exists_of_bind_eq_ok run
  cases got
  obtain ⟨n, deep⟩ : ∃ n, Expression.depthFor (Operands.budget s) = n + 3 := ⟨4 * Operands.budget s + 5, rfl⟩
  rw [deep, Expression.climb] at run
  obtain ⟨left, v, unary, climb⟩ := exists_of_bind_eq_ok run
  obtain ⟨u, continues, offers, value⟩ := of_unary leaf offers unary
  rw [← (puts_leaf leaf value).tokens] at offers
  rw [Expression.climbFrom] at climb
  obtain ⟨after, w, read, climb⟩ := exists_of_bind_eq_ok climb
  obtain ⟨rfl, -, back, continues'⟩ := of_nextToken offers read
  simp only [plain] at climb
  cases climb
  exact ⟨u, v, continues, value, continues'.trans (continues_putBack w after), back⟩

/-- An expression that is a number. -/
theorem of_number {after : Token} {a : Address} {v : Nat} (plain : Expression.operator? after.lexeme = none)
    (offers : s.tokens.Offers (⟨.number v, pos⟩ :: after :: rest)) (run : Asm.expression s = .ok a t) :
    a = .constant (.ofNat v) ∧ t.tokens.Offers (after :: rest) ∧ Continues s [] t := by
  obtain ⟨u, _, continues, value, continues', offers⟩ := of_expression rfl plain offers run
  cases value
  exact ⟨rfl, offers, continues.trans continues'⟩

/-- An expression that is a name. -/
theorem of_name {after : Token} {a : Address} (plain : Expression.operator? after.lexeme = none)
    (offers : s.tokens.Offers (⟨.identifier name, pos⟩ :: after :: rest)) (run : Asm.expression s = .ok a t) :
    ∃ id, t.identifiers.ids[name]? = some id ∧ a = t.symbols.address id ∧ t.tokens.Offers (after :: rest)
      ∧ Continues s [] t := by
  obtain ⟨u, v, continues, value, continues', offers⟩ := of_expression rfl plain offers run
  obtain ⟨id, known, same, resolved⟩ := of_resolve value
  rw [← continues'.address] at same
  exact ⟨id, continues'.identifiers known, same, offers, (continues.trans resolved.toContinues).trans continues'⟩

theorem lexeme_of_ends (ends : token.endsStatement = true) : token.lexeme = .endOfLine ∨ token.lexeme = .endOfFile := by
  unfold Token.endsStatement Lexeme.endsStatement at ends
  split at ends
  · exact .inl ‹_›
  · exact .inr ‹_›
  · cases ends

theorem operator?_of_ends (ends : token.endsStatement = true) : Expression.operator? token.lexeme = none := by
  obtain line | file := lexeme_of_ends ends
  · rw [line]; rfl
  · rw [file]; rfl

theorem isPunct_of_ends (ends : token.endsStatement = true) (p : Punct) : token.isPunct p = false := by
  obtain line | file := lexeme_of_ends ends
  · rw [Token.isPunct, line]; rfl
  · rw [Token.isPunct, file]; rfl

theorem isKeyword_of_ends (ends : token.endsStatement = true) (k : Keyword) : token.isKeyword k = false := by
  obtain line | file := lexeme_of_ends ends
  · rw [Token.isKeyword, line]; rfl
  · rw [Token.isKeyword, file]; rfl

/-! ### Data -/

theorem adds_emitByteOperand (s : Assembler) (pos : Position) (a : Address) : Adds 1 s (s.emitByteOperand pos a) :=
  ⟨emits_emitByteOperand s pos a, unwritten_emitByteOperand s pos a⟩

theorem adds_emitWord (s : Assembler) (a : Address) : Adds 2 s (s.emitWord a) :=
  ⟨emits_emitWord s a, unwritten_emitWord s a⟩

theorem adds_emitAll (s : Assembler) (bs : Array UInt8) : Adds bs.size s (s.emitAll bs) := by
  refine ⟨⟨rfl, ?_⟩, rfl⟩
  simp [segment, emitAll, Segment.size, Segment.append]

theorem Continues.merge {m n : Nat} (h : Continues s [.fixed m] t) (k : Continues t [.fixed n] u) :
    Continues s [.fixed (m + n)] u := by
  have both := h.trans k
  refine ⟨⟨?_, both.cpu, both.options, both.current, both.pass, both.lastReachLog, both.identifiers⟩, both.blocks,
    both.nextLabel⟩
  rw [← both.draft]
  show some (s.draft.skip (m + n)) = some ((s.draft.skip m).skip n)
  simp only [Draft.skip, Nat.add_assoc]

/-- A list of numbers, each of which becomes `width` bytes. -/
theorem of_numbers {width k : Nat} {tokens : List Token} {last : Token} {loop : Nat → Asm Unit}
    (one : ∀ {n s t v pos after rest}, Expression.operator? after.lexeme = none → s.current = .code →
      s.tokens.Offers (⟨.number v, pos⟩ :: after :: rest) → loop (n + 1) s = .ok () t →
      ∃ u, Continues s [.fixed width] u ∧ u.tokens.Offers (after :: rest)
        ∧ (do if ← Asm.comma then loop n) u = .ok () t)
    (ends : last.endsStatement = true) {all : List Token} (h : Numbers tokens k all) (left : all = last :: rest)
    {n : Nat} (room : tokens.length ≤ n) (code : s.current = .code) (offers : s.tokens.Offers tokens)
    (run : loop n s = .ok () t) : Continues s [.fixed (width * k)] t ∧ t.tokens.Offers (last :: rest) := by
  obtain ⟨n, rfl⟩ : ∃ m, n = m + 1 := by
    refine Nat.exists_eq_succ_of_ne_zero fun none => ?_
    cases h <;> simp [none] at room
  induction h generalizing s n with
  | one v pos all =>
    rw [left] at offers
    obtain ⟨u, continues, offers, run⟩ := one (operator?_of_ends ends) code offers run
    obtain ⟨b, w, asked, run⟩ := exists_of_bind_eq_ok run
    obtain ⟨rfl, offers, continues'⟩ := of_comma offers asked
    simp only [isPunct_of_ends ends] at run offers
    cases run
    rw [Nat.mul_one]
    exact ⟨continues.trans continues', offers⟩
  | @more v pos pos' k tokens all h ih =>
    obtain ⟨u, continues, offers, run⟩ := one rfl code offers run
    obtain ⟨b, w, asked, run⟩ := exists_of_bind_eq_ok run
    obtain ⟨rfl, offers, continues'⟩ := of_comma offers asked
    have first := continues.trans continues'
    have room : tokens.length + 1 ≤ n := Nat.le_of_succ_le_succ room
    obtain ⟨n, rfl⟩ : ∃ m, n = m + 1 := ⟨n - 1, by omega⟩
    obtain ⟨others, offers⟩ := ih left (first.current.trans code) offers n (Nat.le_of_succ_le room) run
    rw [Nat.mul_succ, Nat.add_comm]
    exact ⟨first.merge others, offers⟩

/-- One number of a list. -/
theorem of_listed {width v : Nat} {after : Token} {write : Address → Assembler → Assembler} {more : Asm Unit}
    (adds : ∀ a s, Adds width s (write a s)) (plain : Expression.operator? after.lexeme = none)
    (code : s.current = .code) (offers : (Asm.putBack token s).tokens.Offers (⟨.number v, pos⟩ :: after :: rest))
    (run : (do
      Asm.unread token
      let value ← Asm.expression
      modify (write value)
      if ← Asm.comma then more : Asm Unit) s = .ok () t) :
    ∃ u, Continues s [.fixed width] u ∧ u.tokens.Offers (after :: rest)
      ∧ (do if ← Asm.comma then more) u = .ok () t := by
  obtain ⟨_, _, put, run⟩ := exists_of_bind_eq_ok run
  cases put
  obtain ⟨a, w, evaluates, run⟩ := exists_of_bind_eq_ok run
  obtain ⟨-, offers, continues⟩ := of_number plain offers evaluates
  obtain ⟨_, _, written, run⟩ := exists_of_bind_eq_ok run
  cases written
  have read := (continues_putBack s token).trans continues
  have puts := (adds a w).puts (read.current.trans code)
  refine ⟨_, read.trans puts.toContinues, ?_, run⟩
  rwa [puts.tokens]

theorem continues_defineBytes {k : Nat} {tokens : List Token} {last : Token} (h : Numbers tokens k (last :: rest))
    (ends : last.endsStatement = true) (code : s.current = .code) (offers : s.tokens.Offers tokens)
    (run : Asm.defineBytes s = .ok () t) : Continues s [.fixed k] t ∧ t.tokens.Offers (last :: rest) := by
  obtain ⟨_, _, got, run⟩ := exists_of_bind_eq_ok run
  cases got
  rw [← Nat.one_mul k]
  refine of_numbers (fun {n s t v pos after rest} plain code offers run => ?_) ends h rfl offers.room code offers run
  rw [Asm.bytesWithin] at run
  obtain ⟨token, u, read, run⟩ := exists_of_bind_eq_ok run
  obtain ⟨rfl, -, back, continues⟩ := of_nextToken offers read
  have adds (a : Address) (s : Assembler) := adds_emitByteOperand s pos a
  obtain ⟨w, listed, offers, run⟩ := of_listed adds plain (continues.current.trans code) back run
  exact ⟨w, continues.trans listed, offers, run⟩

theorem continues_defineWords {k : Nat} {tokens : List Token} {last : Token} (h : Numbers tokens k (last :: rest))
    (ends : last.endsStatement = true) (code : s.current = .code) (offers : s.tokens.Offers tokens)
    (run : Asm.defineWords s = .ok () t) : Continues s [.fixed (2 * k)] t ∧ t.tokens.Offers (last :: rest) := by
  obtain ⟨_, _, got, run⟩ := exists_of_bind_eq_ok run
  cases got
  refine of_numbers (fun {n s t v pos after rest} plain code offers run => ?_) ends h rfl offers.room code offers run
  rw [Asm.wordsWithin] at run
  obtain ⟨token, u, read, run⟩ := exists_of_bind_eq_ok run
  obtain ⟨rfl, -, back, continues⟩ := of_nextToken offers read
  have adds (a : Address) (s : Assembler) := adds_emitWord s a
  obtain ⟨w, listed, offers, run⟩ := of_listed adds plain (continues.current.trans code) back run
  exact ⟨w, continues.trans listed, offers, run⟩

/-- Looking at the next token. -/
theorem of_nextPosition {found : Position} (offers : s.tokens.Offers (token :: rest))
    (run : Asm.nextPosition s = .ok found t) : t.tokens.Offers (token :: rest) ∧ Continues s [] t := by
  obtain ⟨token, u, read, run⟩ := exists_of_bind_eq_ok run
  obtain ⟨rfl, -, back, continues⟩ := of_nextToken offers read
  cases run
  exact ⟨back, continues.trans (continues_putBack u token)⟩

/-- Storage, and the value to fill it with if there is a comma. -/
theorem of_reserve {n : Nat} {after : Token} {pos' : Position} (plain : Expression.operator? after.lexeme = none)
    (offers : s.tokens.Offers (⟨.number n, pos'⟩ :: after :: rest)) (run : Asm.reserve pos s = .ok () t) :
    ∃ u v fill, Continues s [] u ∧ u.tokens.Offers (if after.isPunct .comma then rest else after :: rest)
      ∧ (if after.isPunct .comma then ∃ a, Asm.expression u = .ok a v else v = u)
      ∧ t = v.emitAll (Array.replicate (UInt16.ofNat n).toNat fill) := by
  obtain ⟨sizePos, u₁, looked, run⟩ := exists_of_bind_eq_ok run
  obtain ⟨offers, continues₁⟩ := of_nextPosition offers looked
  obtain ⟨a, u₂, evaluates, run⟩ := exists_of_bind_eq_ok run
  obtain ⟨rfl, offers, continues₂⟩ := of_number plain offers evaluates
  obtain ⟨count, _, counted, run⟩ := exists_of_bind_eq_ok run
  cases counted
  obtain ⟨b, u, asked, run⟩ := exists_of_bind_eq_ok run
  obtain ⟨rfl, offers, continues₃⟩ := of_comma offers asked
  have continues := (continues₁.trans continues₂).trans continues₃
  dsimp only at run
  split at run
  · rename_i filled
    obtain ⟨value, v, evaluates, run⟩ := exists_of_bind_eq_ok run
    split at run
    · cases run
    · cases run
      refine ⟨u, v, _, continues, offers, ?_, rfl⟩
      rw [if_pos filled]
      exact ⟨value, evaluates⟩
  · rename_i bare
    cases run
    refine ⟨u, u, 0, continues, offers, ?_, rfl⟩
    rw [if_neg bare]

theorem continues_reserve {n : Nat} {last : Token} {pos' : Position} (ends : last.endsStatement = true)
    (code : s.current = .code) (offers : s.tokens.Offers (⟨.number n, pos'⟩ :: last :: rest))
    (run : Asm.reserve pos s = .ok () t) :
    Continues s [.fixed (UInt16.ofNat n).toNat] t ∧ t.tokens.Offers (last :: rest) := by
  obtain ⟨u, v, fill, continues, offers, same, rfl⟩ := of_reserve (operator?_of_ends ends) offers run
  rw [isPunct_of_ends ends] at offers same
  obtain rfl : v = u := same
  have adds := adds_emitAll v (Array.replicate (UInt16.ofNat n).toNat fill)
  rw [Array.size_replicate] at adds
  exact ⟨continues.trans (adds.puts (continues.current.trans code)).toContinues, offers⟩

theorem continues_reserve_fill {n value : Nat} {last : Token} {pos' pos₁ pos₂ : Position}
    (ends : last.endsStatement = true) (code : s.current = .code)
    (offers : s.tokens.Offers
      (⟨.number n, pos'⟩ :: ⟨.punct .comma, pos₁⟩ :: ⟨.number value, pos₂⟩ :: last :: rest))
    (run : Asm.reserve pos s = .ok () t) :
    Continues s [.fixed (UInt16.ofNat n).toNat] t ∧ t.tokens.Offers (last :: rest) := by
  obtain ⟨u, v, fill, continues, offers, ⟨a, evaluates⟩, rfl⟩ := of_reserve rfl offers run
  obtain ⟨-, offers, continues'⟩ := of_number (operator?_of_ends ends) offers evaluates
  have read := continues.trans continues'
  have adds := adds_emitAll v (Array.replicate (UInt16.ofNat n).toNat fill)
  rw [Array.size_replicate] at adds
  exact ⟨read.trans (adds.puts (read.current.trans code)).toContinues, offers⟩

/-! ### Instructions -/

/-- An instruction that the statement ends after. -/
theorem continues_implied {m : Mnemonic} {last : Token} (ends : last.endsStatement = true) (code : s.current = .code)
    (offers : s.tokens.Offers (last :: rest)) (run : Asm.instruction m pos s = .ok () t) :
    Continues s [.fixed 1] t ∧ t.tokens.Offers (last :: rest) := by
  obtain ⟨o, u, reads, run⟩ := exists_of_bind_eq_ok run
  obtain ⟨none, continues, offers⟩ : o = .none ∧ Continues s [] u ∧ u.tokens.Offers (last :: rest) := by
    obtain ⟨token, v, read, reads⟩ := exists_of_bind_eq_ok reads
    obtain ⟨rfl, -, back, continues⟩ := of_nextToken offers read
    have done : u = Asm.putBack token v ∧ o = .none := by
      obtain line | file := lexeme_of_ends ends
      · rw [line] at reads
        cases reads
        exact ⟨rfl, rfl⟩
      · rw [file] at reads
        cases reads
        exact ⟨rfl, rfl⟩
    rw [done.1]
    exact ⟨done.2, continues.trans (continues_putBack v token), back⟩
  rw [none] at run
  obtain ⟨_, _, got, run⟩ := exists_of_bind_eq_ok run
  cases got
  have adds : Adds 1 u t := by
    dsimp only at run
    split at run
    · exact adds_emitOpcode run
    · split at run
      · exact adds_emitOpcode run
      · cases run
  have puts := adds.puts (continues.current.trans code)
  refine ⟨continues.trans puts.toContinues, ?_⟩
  rwa [puts.tokens]

/-- A branch has no accumulator form. -/
theorem not_accumulator_of_relative {m : Mnemonic} {op : UInt8} (h : Cpu.mos6502.opcode? m .relative = some op) :
    Cpu.mos6502.has m .accumulator = false := by
  have branches : (Cpu.mos6502.opcode? m .relative).isSome = true := by
    rw [h]
    rfl
  clear h
  revert branches
  cases m <;> decide

/-- The operand of an instruction that is a name, if it does not stand for the accumulator. -/
theorem of_operand {o : Operand Address} {last : Token} (ends : last.endsStatement = true)
    (offers : s.tokens.Offers (⟨.identifier name, pos⟩ :: last :: rest)) (run : Asm.operand s = .ok o t) :
    Continues s [] t ∧ t.tokens.Offers (last :: rest)
      ∧ (o = .accumulator ∨ ∃ id, t.identifiers.ids[name]? = some id ∧ o = .direct (t.symbols.address id) .none) := by
  obtain ⟨token, u, read, run⟩ := exists_of_bind_eq_ok run
  obtain ⟨rfl, after, back, continues⟩ := of_nextToken offers read
  dsimp only at run
  split at run
  · obtain ⟨token, v, read, run⟩ := exists_of_bind_eq_ok run
    obtain ⟨rfl, -, back, continues'⟩ := of_nextToken after read
    obtain ⟨_, _, put, run⟩ := exists_of_bind_eq_ok run
    cases put
    rw [if_pos ends] at run
    cases run
    exact ⟨(continues.trans continues').trans (continues_putBack v token), back, .inl rfl⟩
  · obtain ⟨_, _, put, run⟩ := exists_of_bind_eq_ok run
    cases put
    obtain ⟨a, v, evaluates, run⟩ := exists_of_bind_eq_ok run
    obtain ⟨id, known, same, offers, continues'⟩ := of_name (operator?_of_ends ends) back evaluates
    obtain ⟨b, w, asked, run⟩ := exists_of_bind_eq_ok run
    obtain ⟨rfl, offers, continues''⟩ := of_comma offers asked
    rw [isPunct_of_ends ends] at run offers
    cases run
    have read := ((continues.trans (continues_putBack u _)).trans continues').trans continues''
    exact ⟨read, offers, .inr ⟨id, continues''.identifiers known, by rw [same, continues''.address]⟩⟩

/-- An instruction with a relative form and a name as its operand is laid out as a branch. -/
theorem continues_relative {m : Mnemonic} {op : UInt8} {last : Token} {pos' : Position} (numbers : t.NumbersAs number)
    (cpu : s.cpu = .mos6502) (relative : Cpu.mos6502.opcode? m .relative = some op) (ends : last.endsStatement = true)
    (code : s.current = .code) (offers : s.tokens.Offers (⟨.identifier name, pos'⟩ :: last :: rest))
    (run : Asm.instruction m pos s = .ok () t) :
    Continues s [.branch pos (number name) (longForm s.options op)] t ∧ t.tokens.Offers (last :: rest) := by
  obtain ⟨o, u, reads, run⟩ := exists_of_bind_eq_ok run
  obtain ⟨_, _, got, run⟩ := exists_of_bind_eq_ok run
  cases got
  obtain ⟨continues, offers, form⟩ := of_operand ends offers reads
  rw [continues.cpu, cpu] at run
  obtain rfl | ⟨id, known, rfl⟩ := form
  · dsimp only at run
    rw [not_accumulator_of_relative relative] at run
    cases run
  · dsimp only at run
    rw [relative] at run
    have branch := puts_branch (continues.current.trans code) run
    rw [← numbers (branch.identifiers known)] at branch
    rw [← branch.tokens] at offers
    rw [← continues.options]
    exact ⟨continues.trans branch.toContinues, offers⟩

/-! ### The end of a statement -/

theorem of_stops {last : Token} {after : List Token} {flow : Flow} (stops : Stops last rest after)
    (offers : s.tokens.Offers (last :: rest)) (run : Asm.endOfStatement s = .ok flow t) :
    flow = .goOn ∧ Continues s [] t ∧ t.tokens.Offers after := by
  obtain ⟨token, u, read, run⟩ := exists_of_bind_eq_ok run
  obtain ⟨rfl, next, back, continues⟩ := of_nextToken offers read
  cases stops with
  | line pos =>
    cases run
    exact ⟨rfl, continues, next⟩
  | file pos =>
    cases run
    exact ⟨rfl, continues.trans (continues_putBack u _), back⟩

end Assembler

end Asm65
