import Asm65.Proofs.DraftedStatement

/-!
# Blocks as pieces of code

Structured statements lay out what `Body.plan` has for them. The test of a loop is the one statement whose code depends
on the line after it: if that line ends the loop and the top of the loop is in reach, the two are one backward branch.
`AtTest` is what the test finds, `After` what a row leaves: either the row alone is done (`After.next`), or also the
end of its loop (`After.turn`). The main result is `after_row`.
-/

namespace Asm65
set_option autoImplicit false

namespace Assembler

variable {s t u : Assembler} {number : String → SymbolId} {pos pos' : Position} {word : String} {id : SymbolId}
  {token last : Token} {rest : List Token}

/-- A body is laid out as planned. -/
def Realizes (number : String → SymbolId) (s : Assembler) (body : Body) (t : Assembler) : Prop :=
  ∃ ps, body.plan number s.options s.frame = some (ps, t.frame) ∧ Draws s ps t

theorem of_condition {c : Condition} (offers : s.tokens.Offers (⟨.identifier word, pos⟩ :: rest))
    (run : Asm.condition s = .ok c t) : Continues s [] t ∧ t.tokens.Offers rest := by
  obtain ⟨token, u, read, run⟩ := exists_of_bind_eq_ok run
  obtain ⟨-, after, -, continues⟩ := of_nextToken offers read
  cases named : token.identifier?.bind Condition.ofWord? with
  | none =>
    rw [named] at run
    cases run
  | some c =>
    rw [named] at run
    cases run
    exact ⟨continues, after⟩

theorem allot_of_newLabel (run : Asm.newLabel s = .ok id t) :
    s.frame.allot = some (id, t.frame) ∧ Draws s [] t ∧ t.tokens = s.tokens := by
  unfold Asm.newLabel at run
  split at run
  · rename_i room
    cases run
    exact ⟨if_pos room, ⟨rfl, rfl, rfl, rfl, rfl, rfl, fun h => h⟩, rfl⟩
  · cases run

theorem draws_of_blocks (s : Assembler) (blocks : BlockStack) : Draws s [] { s with blocks } :=
  ⟨rfl, rfl, rfl, rfl, rfl, rfl, fun h => h⟩

/-- The start of an `if` hands out two labels and branches to the first. -/
theorem realizes_beginIf (code : s.current = .code) (offers : s.tokens.Offers (⟨.identifier word, pos'⟩ :: rest))
    (run : Asm.beginIf pos s = .ok () t) : Realizes number s (.ifBlock pos) t ∧ t.tokens.Offers rest := by
  obtain ⟨c, u, condition, run⟩ := exists_of_bind_eq_ok run
  obtain ⟨continues, offers⟩ := of_condition offers condition
  obtain ⟨elseId, v, first, run⟩ := exists_of_bind_eq_ok run
  obtain ⟨allotted, draws, tokens⟩ := allot_of_newLabel first
  obtain ⟨endId, w, second, run⟩ := exists_of_bind_eq_ok run
  obtain ⟨allotted', draws', tokens'⟩ := allot_of_newLabel second
  obtain ⟨_, _, opens, run⟩ := exists_of_bind_eq_ok run
  cases opens
  obtain ⟨_, _, got, run⟩ := exists_of_bind_eq_ok run
  cases got
  have before := ((continues.toDraws.trans draws).trans draws').trans
    (draws_of_blocks w ((.cond (some elseId) endId, pos) :: w.blocks))
  have branch := puts_branchIf (before.current.trans code) run
  refine ⟨⟨_, ?_, before.trans branch.toDraws⟩, ?_⟩
  · rw [continues.frame] at allotted
    simp only [Body.plan, allotted, allotted', bind, Option.bind, branch.frame]
    rfl
  · rw [← tokens, ← tokens'] at offers
    exact branch.tokens ▸ offers

theorem setTop_of_eq {blocks outer : BlockStack} {b : Block} {opened : Position} (stack : blocks = (b, opened) :: outer)
    (after : Block) : BlockStack.setTop blocks after = (after, opened) :: outer := by
  rw [stack]
  rfl

/-- An `elseif` jumps to the end of its block, places the label that the test before it branches to, and branches to a
new one. -/
theorem realizes_elseIf (cpu : s.cpu = .mos6502) (code : s.current = .code)
    (offers : s.tokens.Offers (⟨.identifier word, pos'⟩ :: rest)) (run : Asm.elseIf pos s = .ok () t) :
    Realizes number s (.elseIf pos) t ∧ t.tokens.Offers rest := by
  obtain ⟨c, u, condition, run⟩ := exists_of_bind_eq_ok run
  obtain ⟨continues, offers⟩ := of_condition offers condition
  obtain ⟨_, _, got, run⟩ := exists_of_bind_eq_ok run
  cases got
  cases top : BlockStack.top? u.blocks with
  | none => rw [top] at run; cases run
  | some b =>
    rw [top] at run
    cases b with
    | loop => cases run
    | cond elseId endId =>
      cases elseId with
      | none => cases run
      | some elseId =>
        obtain ⟨opened, outer, stack⟩ := BlockStack.exists_of_top?_eq top
        obtain ⟨nextElse, v, first, run⟩ := exists_of_bind_eq_ok run
        obtain ⟨allotted, draws, tokens⟩ := allot_of_newLabel first
        obtain ⟨_, w, sets, run⟩ := exists_of_bind_eq_ok run
        cases sets
        obtain ⟨_, _, got, run⟩ := exists_of_bind_eq_ok run
        cases got
        have before := (continues.toDraws.trans draws).trans
          (draws_of_blocks v (BlockStack.setTop v.blocks (.cond (some nextElse) endId)))
        have code := before.current.trans code
        obtain ⟨_, w, jumps, run⟩ := exists_of_bind_eq_ok run
        have jump := (adds_jump (before.cpu.trans cpu) jumps).puts code
        obtain ⟨_, x, places, run⟩ := exists_of_bind_eq_ok run
        have placed := jump.trans (puts_placeLabel (jump.current.trans code) places)
        obtain ⟨_, _, got, run⟩ := exists_of_bind_eq_ok run
        cases got
        have branch := placed.trans (puts_branchIf (placed.current.trans code) run)
        refine ⟨⟨_, ?_, before.trans branch.toDraws⟩, ?_⟩
        · have kept : v.blocks = u.blocks := congrArg Frame.blocks (Frame.of_allot allotted).2
          have stack' : u.frame.blocks = (.cond (some elseId) endId, opened) :: outer := stack
          rw [← continues.frame]
          simp only [Body.plan, stack', allotted, bind, Option.bind, branch.frame]
          rw [frame, setTop_of_eq (kept.trans stack)]
          rfl
        · rw [← tokens] at offers
          exact branch.tokens ▸ offers

/-- An `else` does the same without a test of its own. -/
theorem realizes_elsePart (cpu : s.cpu = .mos6502) (code : s.current = .code) (run : Asm.elsePart pos s = .ok () t) :
    Realizes number s .elsePart t ∧ t.tokens = s.tokens := by
  obtain ⟨_, _, got, run⟩ := exists_of_bind_eq_ok run
  cases got
  cases top : BlockStack.top? s.blocks with
  | none => rw [top] at run; cases run
  | some b =>
    rw [top] at run
    cases b with
    | loop => cases run
    | cond elseId endId =>
      cases elseId with
      | none => cases run
      | some elseId =>
        obtain ⟨opened, outer, stack⟩ := BlockStack.exists_of_top?_eq top
        obtain ⟨_, w, sets, run⟩ := exists_of_bind_eq_ok run
        cases sets
        obtain ⟨_, _, got, run⟩ := exists_of_bind_eq_ok run
        cases got
        have before := draws_of_blocks s (BlockStack.setTop s.blocks (.cond none endId))
        obtain ⟨_, w, jumps, run⟩ := exists_of_bind_eq_ok run
        have jump := (adds_jump (before.cpu.trans cpu) jumps).puts code
        have placed := jump.trans (puts_placeLabel (jump.current.trans code) run)
        refine ⟨⟨_, ?_, before.trans placed.toDraws⟩, placed.tokens⟩
        have stack' : s.frame.blocks = (.cond (some elseId) endId, opened) :: outer := stack
        simp only [Body.plan, stack', placed.frame]
        rw [frame, setTop_of_eq stack]
        rfl

/-- A loop starts with the label of its top. Of the three labels handed out, the other two wait. -/
theorem realizes_beginDo (code : s.current = .code) (run : Asm.beginDo pos s = .ok () t) :
    Realizes number s (.doBlock pos) t ∧ t.tokens = s.tokens := by
  obtain ⟨beginId, u, first, run⟩ := exists_of_bind_eq_ok run
  obtain ⟨allotted, draws, tokens⟩ := allot_of_newLabel first
  obtain ⟨repeatId, v, second, run⟩ := exists_of_bind_eq_ok run
  obtain ⟨allotted', draws', tokens'⟩ := allot_of_newLabel second
  obtain ⟨endId, w, third, run⟩ := exists_of_bind_eq_ok run
  obtain ⟨allotted'', draws'', tokens''⟩ := allot_of_newLabel third
  have before := (draws.trans draws').trans draws''
  obtain ⟨_, x, places, opens⟩ := exists_of_bind_eq_ok run
  cases opens
  have placed := puts_placeLabel (before.current.trans code) places
  have opened := draws_of_blocks x ((.loop beginId repeatId endId false, pos) :: x.blocks)
  refine ⟨⟨_, ?_, (before.trans placed.toDraws).trans opened⟩, ?_⟩
  · simp only [Body.plan, allotted, allotted', allotted'', bind, Option.bind]
    show _ = some (_, Frame.mk (_ :: x.blocks) x.nextLabel)
    rw [placed.blocks, placed.nextLabel]
    rfl
  · exact placed.tokens.trans (tokens''.trans (tokens'.trans tokens))

/-! ### Closing a block -/

theorem diagnostics_of_placeLabels {ids : List SymbolId} (run : Asm.placeLabels pos ids s = .ok () t) :
    t.diagnostics = s.diagnostics := by
  induction ids generalizing s with
  | nil =>
    cases run
    rfl
  | cons id ids ih =>
    obtain ⟨_, u, one, run⟩ := exists_of_bind_eq_ok run
    obtain ⟨_, _, got, one⟩ := exists_of_bind_eq_ok one
    cases got
    rw [ih run]
    obtain ⟨-, failed⟩ | ⟨-, done⟩ := defineId_eq id "" s.here pos s
    · cases failed.symm.trans one
    · cases done.symm.trans one
      rfl

/-- Errors stay while blocks are closed. -/
theorem isEmpty_of_closeFrom {wanted : Opener} {keyword : String} {blocks : BlockStack} {b : Block}
    (run : Asm.closeFrom pos wanted keyword blocks s = .ok b t) (clean : t.diagnostics.isEmpty = true) :
    s.diagnostics.isEmpty = true := by
  induction blocks generalizing s with
  | nil => cases run
  | cons first outer ih =>
    obtain ⟨_, _, set, run⟩ := exists_of_bind_eq_ok run
    cases set
    split at run
    · cases run
      exact clean
    · obtain ⟨_, _, recorded, run⟩ := exists_of_bind_eq_ok run
      cases recorded
      obtain ⟨_, u, places, closes⟩ := exists_of_bind_eq_ok run
      have failed := ih closes
      rw [diagnostics_of_placeLabels places] at failed
      cases (isEmpty_diagnostics_record _ _).symm.trans failed

/-- Without an error the innermost block is the one that is closed. -/
theorem of_closeBlock {wanted : Opener} {keyword : String} {b : Block}
    (run : Asm.closeBlock pos wanted keyword s = .ok b t) (clean : t.diagnostics.isEmpty = true) :
    ∃ opened outer, s.blocks = (b, opened) :: outer ∧ b.opener = wanted ∧ t = { s with blocks := outer } := by
  obtain ⟨_, _, got, run⟩ := exists_of_bind_eq_ok run
  cases got
  dsimp only at run
  split at run
  · cases stack : s.blocks with
    | nil =>
      rw [stack] at run
      cases run
    | cons first outer =>
      rw [stack] at run
      obtain ⟨_, _, set, run⟩ := exists_of_bind_eq_ok run
      cases set
      split at run
      · rename_i same
        cases run
        exact ⟨first.2, outer, rfl, same, rfl⟩
      · obtain ⟨_, _, recorded, run⟩ := exists_of_bind_eq_ok run
        cases recorded
        obtain ⟨_, u, places, closes⟩ := exists_of_bind_eq_ok run
        have failed := isEmpty_of_closeFrom closes clean
        rw [diagnostics_of_placeLabels places] at failed
        cases (isEmpty_diagnostics_record _ _).symm.trans failed
  · cases run

theorem realizes_endIf (code : s.current = .code) (run : Asm.endIf pos s = .ok () t)
    (clean : t.diagnostics.isEmpty = true) : Realizes number s .endIf t ∧ t.tokens = s.tokens := by
  obtain ⟨b, u, closes, places⟩ := exists_of_bind_eq_ok run
  rw [diagnostics_of_placeLabels places] at clean
  obtain ⟨opened, outer, stack, opener, rfl⟩ := of_closeBlock closes clean
  have closed := draws_of_blocks s outer
  have placed := puts_placeLabels (closed.current.trans code) places
  refine ⟨⟨_, ?_, closed.trans placed.toDraws⟩, placed.tokens⟩
  have stack' : s.frame.blocks = (b, opened) :: outer := stack
  cases b with
  | cond elseId endId =>
    simp only [Body.plan, stack', placed.frame]
    rfl
  | loop => cases opener

theorem isEmpty_of_emitWord {a : Address} (clean : (s.emitWord a).diagnostics.isEmpty = true) :
    s.diagnostics.isEmpty = true := by
  obtain ⟨use, d, bs, same, writes⟩ := s.emitWord_eq a
  rw [same] at clean
  obtain rfl | ⟨e, rfl⟩ := writes.reported
  · exact clean
  · cases (Diagnostics.isEmpty_record s.diagnostics e).symm.trans clean

theorem isEmpty_of_emitJump {target : Address} (run : Asm.emitJump target pos s = .ok () t)
    (clean : t.diagnostics.isEmpty = true) : s.diagnostics.isEmpty = true := by
  cases run
  dsimp only [emitPointer] at clean
  split at clean
  · have failed := isEmpty_of_emitWord clean
    cases (isEmpty_diagnostics_record _ _).symm.trans failed
  · exact isEmpty_of_emitWord (s := s.emit Opcode.jump) clean

theorem diagnostics_of_reach {target : Address} {short long : Nat} {r : Reach}
    (run : Asm.reach pos target short long s = .ok r t) : t.diagnostics = s.diagnostics := by
  obtain ⟨length, -, rfl⟩ := exists_of_reach run
  rfl

theorem isEmpty_of_jump {target : Address} (run : Asm.jump target pos s = .ok () t)
    (clean : t.diagnostics.isEmpty = true) : s.diagnostics.isEmpty = true := by
  obtain ⟨_, _, asked, run⟩ := exists_of_bind_eq_ok run
  cases asked
  split at run
  · obtain ⟨r, u, decides, run⟩ := exists_of_bind_eq_ok run
    rw [← diagnostics_of_reach decides]
    cases r with
    | short k =>
      cases run
      exact clean
    | far | unknown => exact isEmpty_of_emitJump run clean
  · exact isEmpty_of_emitJump run clean

/-- An end of a loop that leaves no error closes the innermost block, jumps back and places the labels that still
wait. -/
theorem realizes_endLoop (cpu : s.cpu = .mos6502) (code : s.current = .code) (run : Asm.endLoop pos s = .ok () t)
    (clean : t.diagnostics.isEmpty = true) : Realizes number s .loopEnd t ∧ t.tokens = s.tokens := by
  obtain ⟨b, u, closes, run⟩ := exists_of_bind_eq_ok run
  cases b with
  | cond elseId endId =>
    have places : Asm.placeLabels pos (Block.cond elseId endId).pending u = .ok () t := run
    rw [diagnostics_of_placeLabels places] at clean
    obtain ⟨-, -, -, opener, -⟩ := of_closeBlock closes clean
    cases opener
  | loop beginId repeatId endId tested =>
    obtain ⟨_, _, got, run⟩ := exists_of_bind_eq_ok run
    cases got
    obtain ⟨_, v, jumps, places⟩ := exists_of_bind_eq_ok run
    rw [diagnostics_of_placeLabels places] at clean
    obtain ⟨opened, outer, stack, -, rfl⟩ := of_closeBlock closes (isEmpty_of_jump jumps clean)
    have closed := draws_of_blocks s outer
    have jump := (adds_jump (closed.cpu.trans cpu) jumps).puts (closed.current.trans code)
    have placed := jump.trans (puts_placeLabels (jump.current.trans code) places)
    refine ⟨⟨_, ?_, closed.trans placed.toDraws⟩, placed.tokens⟩
    have stack' : s.frame.blocks = (.loop beginId repeatId endId tested, opened) :: outer := stack
    simp only [Body.plan, stack', placed.frame]
    rfl

/-! ### The test of a loop -/

/-- Skipping empty lines leaves the same rows to be read, and the token that comes next is no end of a line. -/
theorem of_skipEmptyLines {n : Nat} {tokens : List Token} {rows : List Row} (spells : Spells tokens rows)
    (room : tokens.length ≤ n) (offers : s.tokens.Offers tokens) (run : Asm.skipEmptyLines n s = .ok () t) :
    ∃ first more, Spells (first :: more) rows ∧ first.lexeme ≠ .endOfLine ∧ Continues s [] t
      ∧ t.tokens.Offers (first :: more) ∧ more.length < tokens.length := by
  induction n generalizing s tokens with
  | zero => cases spells <;> cases room
  | succ n ih =>
    obtain ⟨first, u, read, run⟩ := exists_of_bind_eq_ok run
    cases tokens with
    | nil => cases spells
    | cons token tokens =>
      obtain ⟨rfl, after, back, continues⟩ := of_nextToken offers read
      split at run
      · rename_i line
        obtain ⟨lexeme, pos⟩ := first
        cases line
        cases spells with
        | blank pos spells =>
          obtain ⟨first, more, spells, ends, continues', offers, shorter⟩ :=
            ih spells (Nat.le_of_succ_le_succ room) after run
          exact ⟨first, more, spells, ends, continues.trans continues', offers, Nat.lt_succ_of_lt shorter⟩
        | row starts => cases starts
      · rename_i other
        cases run
        refine ⟨first, tokens, spells, other, continues.trans ?_, back, Nat.lt_succ_self _⟩
        exact ⟨⟨rfl, rfl, rfl, rfl, rfl, rfl, fun h => h⟩, rfl, rfl⟩

theorem of_peekToken {next : Token} (offers : s.tokens.Offers (token :: rest)) (run : Asm.peekToken s = .ok next t) :
    next = token ∧ t.tokens.Offers (token :: rest) ∧ Continues s [] t := by
  obtain ⟨tokens, read, -, back⟩ := offers.next
  unfold Asm.peekToken TokenStream.peek at run
  rw [read] at run
  cases run
  exact ⟨rfl, back, ⟨rfl, rfl, rfl, rfl, rfl, rfl, fun h => h⟩, rfl, rfl⟩

theorem reachesBack_eq (code : s.current = .code) (id : SymbolId) :
    s.reachesBack (s.symbols.address id) 2 = s.draft.turnsAt id := by
  unfold reachesBack Draft.turnsAt
  rw [here_draft code, address_draft]
  rfl

theorem draft_dropped (s : Assembler) (id : SymbolId) (blocks : BlockStack) :
    (log { s with symbols := s.symbols.erase id, blocks } (.dropped id)).draft = s.draft.erase id := by
  refine congrArg (Draft.mk _ · _) (funext fun other => ?_)
  show ((s.symbols.erase id).get? other).map _ = _
  by_cases same : other = id
  · rw [same, Function.update_self, SymbolTable.get?_erase_self]
    rfl
  · rw [Function.update_of_ne same, SymbolTable.get?_erase_of_ne _ (Ne.symm same)]
    rfl

/-- A test before it is decided whether one branch back does for it and the end of its loop: the loop, the next token
and those after it, `size` tokens at most. -/
structure AtTest (s : Assembler) (beginId repeatId endId : SymbolId) (opened : Position) (outer : BlockStack)
    (rows : List Row) (size : Nat) (x : Assembler) (next : Token) (tokens : List Token) : Prop where
  stack : s.blocks = (.loop beginId repeatId endId false, opened) :: outer
  draws : Draws s [] x
  frame : x.frame = ⟨(.loop beginId repeatId endId true, opened) :: outer, s.nextLabel⟩
  offers : x.tokens.Offers (next :: tokens)
  spells : Spells (next :: tokens) rows
  line : next.lexeme ≠ .endOfLine
  short : tokens.length < size

/-- The two ways of a test. -/
theorem of_loopTest {flow : Flow} {after : List Token} {rows : List Row} (code : s.current = .code)
    (offers : s.tokens.Offers (⟨.identifier word, pos'⟩ :: last :: rest)) (stops : Stops last rest after)
    (spells : Spells after rows) (run : Asm.whileTest pos s = .ok flow t) :
    ∃ c beginId repeatId endId opened outer x next tokens,
      AtTest s beginId repeatId endId opened outer rows after.length x next tokens
        ∧ ((next.lexeme = .keyword .loopEnd ∧ s.draft.turnsAt repeatId = true ∧ (do
            let _ ← Asm.nextToken
            Asm.branchIf c (x.symbols.address repeatId) pos
            Asm.placeLabel beginId pos
            Asm.dropEnd endId
            Asm.endOfStatement : Asm Flow) x = .ok flow t)
          ∨ ((next.lexeme = .keyword .loopEnd → s.draft.turnsAt repeatId = false) ∧ (do
            Asm.branchIf c.invert (← Asm.labelAddress endId) pos
            Asm.placeLabel beginId pos
            return .goOn : Asm Flow) x = .ok flow t)) := by
  obtain ⟨c, u, condition, run⟩ := exists_of_bind_eq_ok run
  obtain ⟨conditioned, offers⟩ := of_condition offers condition
  obtain ⟨_, _, got, run⟩ := exists_of_bind_eq_ok run
  cases got
  dsimp only at run
  cases top : BlockStack.top? u.blocks with
  | none => rw [top] at run; cases run
  | some b =>
    rw [top] at run
    cases b with
    | cond elseId endId => cases elseId <;> cases run
    | loop beginId repeatId endId tested =>
      cases tested with
      | true => cases run
      | false =>
        obtain ⟨opened, outer, stack⟩ := BlockStack.exists_of_top?_eq top
        obtain ⟨_, _, set, run⟩ := exists_of_bind_eq_ok run
        cases set
        have set := draws_of_blocks u (BlockStack.setTop u.blocks (.loop beginId repeatId endId true))
        obtain ⟨_, v, ends, run⟩ := exists_of_bind_eq_ok run
        obtain ⟨-, ended, offers⟩ := of_stops (s := { u with blocks := BlockStack.setTop u.blocks _ }) stops offers ends
        obtain ⟨_, _, got, run⟩ := exists_of_bind_eq_ok run
        cases got
        obtain ⟨_, w, blank, run⟩ := exists_of_bind_eq_ok run
        obtain ⟨next, tokens, spells, line, skipped, offers, short⟩ := of_skipEmptyLines spells offers.room offers blank
        obtain ⟨_, _, got, run⟩ := exists_of_bind_eq_ok run
        cases got
        obtain ⟨next, x, peeks, run⟩ := exists_of_bind_eq_ok run
        obtain ⟨rfl, offers, peeked⟩ := of_peekToken offers peeks
        obtain ⟨_, _, got, run⟩ := exists_of_bind_eq_ok run
        cases got
        have opens := (ended.trans skipped).trans peeked
        have draws := (conditioned.toDraws.trans set).trans opens.toDraws
        refine ⟨c, beginId, repeatId, endId, opened, outer, x, next, tokens,
          ⟨?_, draws, ?_, offers, spells, line, short⟩, ?_⟩
        · rw [← conditioned.blocks, stack]
        · rw [opens.frame, ← conditioned.nextLabel, ← setTop_of_eq stack]
          rfl
        · rw [← peeked.address, reachesBack_eq (draws.current.trans code), draws.same] at run
          split at run
          · rename_i takes
            rw [Bool.and_eq_true] at takes
            exact .inl ⟨beq_iff_eq.1 takes.1, takes.2, run⟩
          · rename_i leaves
            refine .inr ⟨fun loopEnd => ?_, run⟩
            rw [Token.isKeyword, loopEnd] at leaves
            simpa using leaves

/-- What becomes of a row after its labels, with other rows to come, of `size` tokens at most. -/
inductive After (number : String → SymbolId) (s : Assembler) (body : Option Body) (rows : List Row) (size : Nat)
    (t : Assembler) : Prop where
  | next {ps : List Piece} {tokens : List Token} (draws : Draws s ps t)
    (planned : Row.plan number s.options s.frame ⟨[], body⟩ = some (ps, t.frame))
    (far : ∀ {pos opened beginId repeatId endId outer more}, body = some (.whileTest pos) →
      rows = ⟨[], some .loopEnd⟩ :: more → s.blocks = (.loop beginId repeatId endId false, opened) :: outer →
      s.draft.turnsAt repeatId = false)
    (offers : t.tokens.Offers tokens) (spells : Spells tokens rows) (short : tokens.length ≤ size)
  /-- A test that takes the end of its loop with it. -/
  | turn {pos opened : Position} {beginId repeatId endId : SymbolId} {outer : BlockStack} {more : List Row}
    {tokens : List Token} (test : body = some (.whileTest pos)) (loopEnd : rows = ⟨[], some .loopEnd⟩ :: more)
    (stack : s.blocks = (.loop beginId repeatId endId false, opened) :: outer)
    (draws : Draws s [.turn pos repeatId beginId endId] t) (frame : t.frame = ⟨outer, s.nextLabel⟩)
    (offers : t.tokens.Offers tokens) (spells : Spells tokens more) (short : tokens.length ≤ size)

/-- One branch back. -/
theorem turn_of_loopTest {c : Condition} {flow : Flow} {beginId repeatId endId : SymbolId} {opened : Position}
    {outer : BlockStack} {rows : List Row} {size : Nat} {x : Assembler} {next : Token} {tokens : List Token}
    (code : s.current = .code) (test : AtTest s beginId repeatId endId opened outer rows size x next tokens)
    (loopEnd : next.lexeme = .keyword .loopEnd) (near : s.draft.turnsAt repeatId = true)
    (run : (do
      let _ ← Asm.nextToken
      Asm.branchIf c (x.symbols.address repeatId) pos
      Asm.placeLabel beginId pos
      Asm.dropEnd endId
      Asm.endOfStatement : Asm Flow) x = .ok flow t) :
    flow = .goOn ∧ After number s (some (.whileTest pos)) rows size t := by
  obtain ⟨last, rest, after, more, rfl, stops, spells, same⟩ := test.spells.of_loopEnd loopEnd
  obtain ⟨_, y, read, run⟩ := exists_of_bind_eq_ok run
  obtain ⟨-, offers, -, reads⟩ := of_nextToken test.offers read
  have before := test.draws.trans reads.toDraws
  have code := before.current.trans code
  obtain ⟨_, z, branches, run⟩ := exists_of_bind_eq_ok run
  rw [← reads.address] at branches
  have branch := puts_branchIf code branches
  obtain ⟨_, z, places, run⟩ := exists_of_bind_eq_ok run
  have placed := branch.trans (puts_placeLabel (branch.current.trans code) places)
  obtain ⟨_, _, erases, ends⟩ := exists_of_bind_eq_ok run
  cases erases
  rw [← placed.tokens] at offers
  obtain ⟨goOn, ended, offers⟩ :=
    of_stops (s := log { z with symbols := z.symbols.erase endId, blocks := z.blocks.tail } (.dropped endId))
      stops offers ends
  have draws := before.trans placed.toDraws
  refine ⟨goOn, .turn rfl same test.stack ⟨?_, ended.cpu.trans draws.cpu, ended.options.trans draws.options,
    ended.current.trans draws.current, ended.pass.trans draws.pass, ended.lastReachLog.trans draws.lastReachLog,
    ended.identifiers ∘ draws.identifiers⟩ ?_ offers spells (Nat.le_trans stops.length_le (Nat.le_of_lt test.short))⟩
  · rw [ended.same, draft_dropped]
    exact Piece.lay_turn_near near draws.draft
  · rw [ended.frame]
    show Frame.mk z.blocks.tail z.nextLabel = _
    rw [placed.blocks, placed.nextLabel, reads.blocks, reads.nextLabel]
    exact congrArg (fun f : Frame => Frame.mk f.blocks.tail f.next) test.frame

/-- A branch out of the loop. -/
theorem next_of_loopTest {c : Condition} {flow : Flow} {beginId repeatId endId : SymbolId} {opened : Position}
    {outer : BlockStack} {rows : List Row} {size : Nat} {x : Assembler} {next : Token} {tokens : List Token}
    (code : s.current = .code) (test : AtTest s beginId repeatId endId opened outer rows size x next tokens)
    (far : next.lexeme = .keyword .loopEnd → s.draft.turnsAt repeatId = false)
    (run : (do
      Asm.branchIf c.invert (← Asm.labelAddress endId) pos
      Asm.placeLabel beginId pos
      return .goOn : Asm Flow) x = .ok flow t) :
    flow = .goOn ∧ After number s (some (.whileTest pos)) rows size t := by
  have code := test.draws.current.trans code
  obtain ⟨_, _, got, run⟩ := exists_of_bind_eq_ok run
  cases got
  obtain ⟨_, z, branches, run⟩ := exists_of_bind_eq_ok run
  have branch := puts_branchIf code branches
  obtain ⟨_, z, places, run⟩ := exists_of_bind_eq_ok run
  have placed := branch.trans (puts_placeLabel (branch.current.trans code) places)
  cases run
  refine ⟨rfl, .next (test.draws.trans placed.toDraws) ?_ ?_ (placed.tokens ▸ test.offers) test.spells test.short⟩
  · have stack : s.frame.blocks = (.loop beginId repeatId endId false, opened) :: outer := test.stack
    simp only [Row.plan, Body.plan, stack, placed.frame, test.frame]
    rfl
  · intro pos opened' beginId' repeatId' endId' outer' more _ same stack
    cases test.stack.symm.trans stack
    have spells := test.spells
    rw [same] at spells
    exact far (spells.loopEnd test.line)

theorem after_whileTest {flow : Flow} {after : List Token} {rows : List Row} (code : s.current = .code)
    (offers : s.tokens.Offers (⟨.identifier word, pos'⟩ :: last :: rest)) (stops : Stops last rest after)
    (spells : Spells after rows) (run : Asm.whileTest pos s = .ok flow t) :
    flow = .goOn ∧ After number s (some (.whileTest pos)) rows after.length t := by
  obtain ⟨c, beginId, repeatId, endId, opened, outer, x, next, tokens, test, way⟩ :=
    of_loopTest code offers stops spells run
  obtain ⟨loopEnd, near, run⟩ | ⟨far, run⟩ := way
  · exact turn_of_loopTest code test loopEnd near run
  · exact next_of_loopTest code test far run

/-! ### Rows -/

theorem After.exists_draws {body : Option Body} {rows : List Row} {size : Nat} (h : After number s body rows size t) :
    ∃ ps, Draws s ps t := by
  cases h with
  | next draws => exact ⟨_, draws⟩
  | turn _ _ _ draws => exact ⟨_, draws⟩

theorem After.of_continues {body : Option Body} {rows : List Row} {size : Nat} (h : Continues s [] u)
    (after : After number u body rows size t) : After number s body rows size t := by
  cases after with
  | next draws planned far offers spells short =>
    rw [h.frame, h.options] at planned
    rw [h.same, h.blocks] at far
    exact .next (h.toDraws.trans draws) planned far offers spells short
  | turn test loopEnd stack draws frame offers spells short =>
    rw [h.blocks] at stack
    rw [h.nextLabel] at frame
    exact .turn test loopEnd stack (h.toDraws.trans draws) frame offers spells short

/-- Reading the end of a statement adds no error and no name. -/
theorem quiet_endOfStatement {flow : Flow} (run : Asm.endOfStatement s = .ok flow t) :
    t.diagnostics = s.diagnostics ∧ t.identifiers = s.identifiers := by
  obtain ⟨token, u, read, run⟩ := exists_of_bind_eq_ok run
  have first : u.diagnostics = s.diagnostics ∧ u.identifiers = s.identifiers := by
    unfold Asm.nextToken at read
    split at read <;> cases read
    exact ⟨rfl, rfl⟩
  cases lexeme : token.lexeme <;> rw [lexeme] at run <;> cases run
  · exact first
  · exact first

/-- A body other than a test, and the end of its statement. -/
theorem after_thenEnd {work : Asm Unit} {body : Body} {flow : Flow} {after : List Token} {rows : List Row}
    (works : ∀ {u}, work s = .ok () u → u.diagnostics.isEmpty = true → u.NumbersAs number →
      Realizes number s body u ∧ u.tokens.Offers (last :: rest))
    (other : ∀ pos, body ≠ .whileTest pos) (stops : Stops last rest after) (spells : Spells after rows)
    (clean : t.diagnostics.isEmpty = true) (numbers : t.NumbersAs number) (run : Asm.thenEnd work s = .ok flow t) :
    flow = .goOn ∧ After number s (some body) rows after.length t := by
  obtain ⟨_, u, worked, ends⟩ := exists_of_bind_eq_ok run
  obtain ⟨errors, names⟩ := quiet_endOfStatement ends
  rw [errors] at clean
  unfold NumbersAs at numbers
  rw [names] at numbers
  obtain ⟨⟨ps, planned, draws⟩, offers⟩ := works worked clean numbers
  obtain ⟨goOn, ended, offers⟩ := of_stops stops offers ends
  refine ⟨goOn, .next (draws.trans ended.toDraws) ?_ ?_ offers spells (Nat.le_refl _)⟩
  · rw [List.append_nil, ended.frame]
    exact planned
  · intro pos _ _ _ _ _ _ same
    cases same
    exact (other pos rfl).elim

theorem Continues.realizes {body : Body} {ps : List Piece} (h : Continues s ps t)
    (planned : body.plan number s.options s.frame = some (ps, s.frame)) : Realizes number s body t :=
  ⟨ps, by rw [h.frame]; exact planned, h.toDraws⟩

/-- An instruction that stands first in a statement. -/
theorem of_instruction {n : Nat} {flow : Flow} {after : Token} (colon : after.isPunct .colon = false)
    (equate : (after.isKeyword .equate || after.isPunct .equals) = false)
    (offers : s.tokens.Offers (after :: rest))
    (run : Asm.statementWithin (n + 1) ⟨.identifier word, pos⟩ s = .ok flow t) :
    ∃ m u, s.cpu.mnemonic? word = some m ∧ Continues s [] u ∧ u.tokens.Offers (after :: rest)
      ∧ Asm.thenEnd (Asm.instruction m pos) u = .ok flow t := by
  rw [Asm.statementWithin] at run
  obtain ⟨token, u, read, run⟩ := exists_of_bind_eq_ok run
  obtain ⟨rfl, -, back, continues⟩ := of_nextToken offers read
  rw [if_neg (by rw [colon]; decide), if_neg (by rw [equate]; decide)] at run
  obtain ⟨_, _, put, run⟩ := exists_of_bind_eq_ok run
  cases put
  obtain ⟨_, _, got, run⟩ := exists_of_bind_eq_ok run
  cases got
  have whole := continues.trans (continues_putBack u token)
  rw [whole.cpu] at run
  cases named : s.cpu.mnemonic? word with
  | none =>
    rw [named] at run
    cases run
  | some m =>
    rw [named] at run
    exact ⟨m, _, rfl, whole, back, run⟩

/-- A body and the end of its statement. A test is the one body that looks at the rows behind it. -/
theorem after_body {n : Nat} {flow : Flow} {first : Token} {tokens after : List Token} {body : Body} {rows : List Row}
    (cpu : s.cpu = .mos6502) (code : s.current = .code) (reads : body.Reads (first :: tokens) (last :: rest))
    (stops : Stops last rest after) (spells : Spells after rows) (offers : s.tokens.Offers tokens)
    (clean : t.diagnostics.isEmpty = true) (numbers : t.NumbersAs number)
    (run : Asm.statementWithin (n + 1) first s = .ok flow t) :
    flow = .goOn ∧ After number s (some body) rows after.length t := by
  have ends := stops.ends
  cases reads with
  | implied word pos =>
    have equate : (last.isKeyword .equate || last.isPunct .equals) = false := by
      rw [isKeyword_of_ends ends, isPunct_of_ends ends]
      rfl
    obtain ⟨m, u, -, continues, offers, run⟩ := of_instruction (isPunct_of_ends ends _) equate offers run
    refine (after_thenEnd (fun worked _ _ => ?_) (by simp) stops spells clean numbers run).imp_right
      (.of_continues continues)
    obtain ⟨written, offers⟩ := continues_implied ends (continues.current.trans code) offers worked
    exact ⟨written.realizes rfl, offers⟩
  | @branch word op h target pos pos' =>
    obtain ⟨m, u, named, continues, offers, run⟩ := of_instruction rfl rfl offers run
    refine (after_thenEnd (fun worked _ numbers => ?_) (by simp) stops spells clean numbers run).imp_right
      (.of_continues continues)
    have relative : Cpu.mos6502.opcode? m .relative = some op := by
      rw [cpu] at named
      rwa [branchOpcode?, named] at h
    obtain ⟨written, offers⟩ := continues_relative numbers (continues.cpu.trans cpu) relative ends
      (continues.current.trans code) offers worked
    exact ⟨written.realizes rfl, offers⟩
  | bytes pos h =>
    refine after_thenEnd (fun worked _ _ => ?_) (by simp) stops spells clean numbers run
    obtain ⟨continues, offers⟩ := continues_defineBytes h ends code offers worked
    exact ⟨continues.realizes rfl, offers⟩
  | words pos h =>
    refine after_thenEnd (fun worked _ _ => ?_) (by simp) stops spells clean numbers run
    obtain ⟨continues, offers⟩ := continues_defineWords h ends code offers worked
    exact ⟨continues.realizes rfl, offers⟩
  | reserve n pos pos' =>
    refine after_thenEnd (fun worked _ _ => ?_) (by simp) stops spells clean numbers run
    obtain ⟨continues, offers⟩ := continues_reserve ends code offers worked
    exact ⟨continues.realizes rfl, offers⟩
  | fill n value pos pos' pos₁ pos₂ =>
    refine after_thenEnd (fun worked _ _ => ?_) (by simp) stops spells clean numbers run
    obtain ⟨continues, offers⟩ := continues_reserve_fill ends code offers worked
    exact ⟨continues.realizes rfl, offers⟩
  | ifBlock word pos pos' =>
    exact after_thenEnd (fun worked _ _ => realizes_beginIf code offers worked) (by simp) stops spells clean numbers run
  | elseIf word pos pos' =>
    exact after_thenEnd (fun worked _ _ => realizes_elseIf cpu code offers worked) (by simp) stops spells clean numbers
      run
  | elsePart pos =>
    refine after_thenEnd (fun worked _ _ => ?_) (by simp) stops spells clean numbers run
    obtain ⟨realizes, tokens⟩ := realizes_elsePart cpu code worked
    exact ⟨realizes, tokens ▸ offers⟩
  | endIf pos =>
    refine after_thenEnd (fun worked clean _ => ?_) (by simp) stops spells clean numbers run
    obtain ⟨realizes, tokens⟩ := realizes_endIf code worked clean
    exact ⟨realizes, tokens ▸ offers⟩
  | doBlock pos =>
    refine after_thenEnd (fun worked _ _ => ?_) (by simp) stops spells clean numbers run
    obtain ⟨realizes, tokens⟩ := realizes_beginDo code worked
    exact ⟨realizes, tokens ▸ offers⟩
  | whileTest word pos pos' => exact after_whileTest code offers stops spells run
  | loopEnd pos =>
    refine after_thenEnd (fun worked clean _ => ?_) (by simp) stops spells clean numbers run
    obtain ⟨realizes, tokens⟩ := realizes_endLoop cpu code worked clean
    exact ⟨realizes, tokens ▸ offers⟩

/-- A label that stands first in a statement. -/
theorem of_label {n : Nat} {flow : Flow} {name : String} (code : s.current = .code)
    (offers : s.tokens.Offers (⟨.punct .colon, pos'⟩ :: token :: rest))
    (run : Asm.statementWithin (n + 1) ⟨.identifier name, pos⟩ s = .ok flow t) :
    ∃ id u, u.identifiers.ids[name]? = some id ∧ Continues s [.label id] u ∧ u.tokens.Offers rest
      ∧ (Asm.putBack token u).tokens.Offers (token :: rest)
      ∧ (if token.endsStatement then do Asm.unread token; Asm.endOfStatement
        else Asm.statementWithin n token : Asm Flow) u
        = .ok flow t := by
  rw [Asm.statementWithin] at run
  obtain ⟨colon, u, read, run⟩ := exists_of_bind_eq_ok run
  obtain ⟨rfl, offers, -, continues⟩ := of_nextToken offers read
  obtain ⟨_, v, places, run⟩ := exists_of_bind_eq_ok run
  obtain ⟨id, known, placed⟩ := of_placeName (continues.current.trans code) places
  rw [← placed.tokens] at offers
  obtain ⟨token, w, read, run⟩ := exists_of_bind_eq_ok run
  obtain ⟨rfl, offers, back, continues'⟩ := of_nextToken offers read
  refine ⟨id, w, continues'.identifiers known, (continues.trans placed.toContinues).trans continues', offers, back, run⟩

theorem exists_of_statementWithin {n : Nat} {flow : Flow} (run : Asm.statementWithin n token s = .ok flow t) :
    ∃ m, n = m + 1 := by
  cases n with
  | zero => cases run
  | succ m => exact ⟨m, rfl⟩

/-- A row, its labels first. -/
theorem after_row {n : Nat} {flow : Flow} {first : Token} {tokens all left after : List Token} {row : Row}
    {rows : List Row} (cpu : s.cpu = .mos6502) (code : s.current = .code) (reads : row.Reads all left)
    (starts : all = first :: tokens) (stands : left = last :: rest) (stops : Stops last rest after) (spells : Spells after rows)
    (offers : s.tokens.Offers tokens) (clean : t.diagnostics.isEmpty = true) (numbers : t.NumbersAs number)
    (run : Asm.statementWithin n first s = .ok flow t) :
    flow = .goOn
      ∧ ∃ u, Continues s (labelPieces number row.labels) u ∧ After number u row.body rows after.length t := by
  induction reads generalizing s n first tokens with
  | body h =>
    subst starts stands
    obtain ⟨n, rfl⟩ := exists_of_statementWithin run
    obtain ⟨goOn, after⟩ := after_body cpu code h stops spells offers clean numbers run
    exact ⟨goOn, s, .refl s, after⟩
  | bare name pos pos' rest ends =>
    cases starts
    cases stands
    obtain ⟨n, rfl⟩ := exists_of_statementWithin run
    obtain ⟨id, u, known, continues, -, back, run⟩ := of_label code offers run
    rw [if_pos ends] at run
    obtain ⟨_, _, put, run⟩ := exists_of_bind_eq_ok run
    cases put
    obtain ⟨goOn, ended, offers⟩ := of_stops stops back run
    have ended := (continues_putBack u _).trans ended
    have same : number name = id := numbers (ended.identifiers known)
    rw [← same] at continues
    refine ⟨goOn, u, continues, .next ended.toDraws ?_ ?_ offers spells (Nat.le_refl _)⟩
    · rw [ended.frame]
      rfl
    · intro _ _ _ _ _ _ _ none
      cases none
  | @label name pos pos' next tokens left row goesOn h ih =>
    cases starts
    obtain ⟨n, rfl⟩ := exists_of_statementWithin run
    obtain ⟨id, u, known, continues, offers, -, run⟩ := of_label code offers run
    rw [if_neg (by rw [goesOn]; decide)] at run
    obtain ⟨goOn, v, labels, after⟩ := ih (continues.cpu.trans cpu) (continues.current.trans code) rfl stands offers run
    obtain ⟨ps, draws⟩ := after.exists_draws
    have same : number name = id := numbers (draws.identifiers (labels.identifiers known))
    rw [← same] at continues
    exact ⟨goOn, v, continues.trans labels, after⟩

end Assembler

end Asm65
