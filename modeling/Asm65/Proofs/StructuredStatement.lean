import Asm65.Proofs.StructuredBlock

/-!
# Structured statements

Each statement of a structured block leaves what is unknown waiting for labels of blocks that are still open:
a label of a block that it closes gets its place first.
-/

namespace Asm65
set_option autoImplicit false

namespace Assembler

variable {ids : List SymbolId} {bs : BlockStack} (pos : Position)

theorem does_condition : Plain Asm.condition := by
  refine .first does_nextToken fun t => ?_
  split
  · exact .pure fun _ _ _ => trivial
  · exact .fail _ _

/-- The block just closed: its labels still wait, and the top of a loop has its place. -/
structure Closed (b : Block) (s : Assembler) : Prop where
  kept : s.Kept (b.pending ++ BlockStack.awaited s.blocks)
  high : ∀ id ∈ b.labels, autoLabelBase ≤ id.toNat
  top : ∀ id ∈ b.top?, (s.symbols.get? id).isSome

theorem does_closeInnermost {b : Block} {opened : Position} {rest : BlockStack} :
    Does Steps (Within ((b, opened) :: rest) (BlockStack.awaited ((b, opened) :: rest))) (Asm.setBlocks rest)
      (fun _ s => s.blocks = rest ∧ s.Closed b) := by
  refine .modify fun s sound within => ?_
  have nested := within.nested sound
  have step : Step s { s with blocks := rest } := .blocks rest nested.tail
  have kept : s.Kept (b.pending ++ BlockStack.awaited rest) :=
    within.kept.mono fun id h =>
      List.mem_append.2 ((List.mem_append.1 h).imp_left fun h => b.awaited_subset_pending h)
  refine ⟨.single step, rfl, kept.step step.grows (fun _ mem _ => .inl mem) .inr, fun _ h => nested.high h, ?_⟩
  exact nested.top _ (List.mem_cons_self ..)

/-- After closing a block, its labels get their place. -/
theorem does_placePending (b : Block) :
    Does Steps (fun s => s.Closed b) (Asm.placeLabels pos b.pending) (fun _ => Tidy) := by
  refine .atState fun s _ closed => ?_
  have high : ∀ id ∈ b.pending, autoLabelBase ≤ id.toNat := fun id h => closed.high id (b.pending_subset_labels h)
  exact ((does_placeLabels pos b.pending high).fromState ⟨rfl, closed.kept⟩).post fun _ _ within => within.tidy

/-- Closing gives the block that is found. Where blocks are skipped, an error has been reported and nothing waits any
longer. -/
theorem does_closeFrom (wanted : Opener) (keyword : String) :
    Does Steps (Within bs (BlockStack.awaited bs)) (Asm.closeFrom pos wanted keyword bs) (fun b s => s.Closed b) := by
  induction bs with
  | nil => exact .fail _ _
  | cons first rest ih =>
    obtain ⟨b, opened⟩ := first
    refine does_closeInnermost.bind fun _ => ?_
    split
    · exact .pure fun _ _ h => h.2
    · have report : Does Steps (fun s => s.blocks = rest ∧ s.Closed b)
          (modify (·.record (.at_ (.blockNotClosedBefore b.opener.name keyword) pos)))
          (fun _ s => s.blocks = rest ∧ s.diagnostics.isEmpty = false ∧ ∀ id ∈ b.labels, autoLabelBase ≤ id.toNat) :=
        .modify fun s _ h => ⟨.single (.act (.report _ : Action [] s _)), h.1, Diagnostics.isEmpty_record _ _, h.2.high⟩
      refine report.bind fun _ => ?_
      -- with an error reported nothing waits any longer, so the labels need only their numbers
      refine Does.bind (Q := fun _ => Within rest (BlockStack.awaited rest)) (.atState fun s _ h => ?_) fun _ => ih
      have high : ∀ id ∈ b.pending, autoLabelBase ≤ id.toNat := fun id hid => h.2.2 id (b.pending_subset_labels hid)
      exact (does_placeLabels pos b.pending high).fromState ⟨h.1, .of_failed h.2.1⟩

theorem does_closeBlock (wanted : Opener) (keyword : String) :
    Does Steps Tidy (Asm.closeBlock pos wanted keyword) (fun b s => s.Closed b) := by
  refine .getThen fun s _ tidy => ?_
  dsimp only
  split
  · exact (does_closeFrom pos wanted keyword).fromState tidy.within
  · exact .fail _ _

theorem does_endIf : Does Steps Tidy (Asm.endIf pos) (fun _ => Tidy) :=
  (does_closeBlock pos .ifBlock "ENDIF").bind fun b => does_placePending pos b

theorem stable_closed (b : Block) : Stable (Acts []) (Closed b) := by
  intro s t sound acts closed
  have quiet := acts.quiet sound
  refine ⟨?_, closed.high, fun id top => ?_⟩
  · rw [quiet.blocks]
    exact closed.kept.acts sound acts (List.nil_subset _)
  · rw [quiet.labels (closed.high id (b.mem_labels_of_top? top))]
    exact closed.top id top

/-- A jump back to the top of a loop. -/
theorem does_jumpBack {b : Block} {id : SymbolId} (top : id ∈ b.top?) :
    Does Steps (Closed b) (do Asm.jump (← Asm.labelAddress id) pos) (fun _ => Closed b) := by
  unfold Asm.labelAddress
  simp only [bind_assoc, pure_bind]
  refine .getThen fun s sound closed => ?_
  have known := known_label sound (closed.high id (b.mem_labels_of_top? top)) (closed.top id top)
  have jump := (does_jump (s.symbols.address id) pos).frame (stable_closed b)
  exact (jump.steps.fromState ⟨known.aims, closed⟩).post fun _ _ h => h.2

theorem does_endLoop : Does Steps Tidy (Asm.endLoop pos) (fun _ => Tidy) := by
  refine (does_closeBlock pos .doBlock "WEND").bind fun b => ?_
  cases b with
  | loop beginId repeatId endId tested =>
    dsimp only
    rw [← bind_assoc]
    exact (does_jumpBack pos rfl).bind fun _ => does_placePending pos _
  | cond elseId endId => exact Does.bind (.pure fun _ _ h => h) fun _ => does_placePending pos _

theorem does_beginIf : Does Steps Tidy (Asm.beginIf pos) (fun _ => Tidy) := by
  refine (does_condition.tidy).bind fun c => .atState fun s sound tidy => ?_
  refine ((does_newLabel []).fromState ⟨fresh_nil s, tidy.within⟩).bind fun elseId => ?_
  refine (does_newLabel [elseId]).bind fun endId => ?_
  refine Does.bind (.pre (does_openBlock _ pos) fun t _ h => ⟨h.1, fun _ top => (by cases top), h.2⟩) fun _ => ?_
  refine (does_toLabel (fun a => does_branchIf c.invert a pos) ?_ ?_).post fun _ _ h => h.tidy
  · exact List.mem_append_left _ (List.mem_cons_self ..)
  · exact List.mem_append_left _ (List.mem_cons_self ..)

/-- An `elseif` places the label that the last test waits for, and its own test waits for the next one. -/
theorem does_elseIf : Does Steps Tidy (Asm.elseIf pos) (fun _ => Tidy) := by
  refine (does_condition.tidy).bind fun c => .getThen fun s sound tidy => ?_
  split
  · rename_i elseId endId top
    obtain ⟨opened, rest, within⟩ := tidy.innermost top
    have nested := within.nested sound
    refine ((does_newLabel []).fromState ⟨fresh_nil s, within⟩).bind fun nextElse => ?_
    -- the block gives up `elseId`, which branches may already aim at, until it gets its place below
    let after : BlockStack := (.cond (some nextElse) endId, opened) :: rest
    have waits : BlockStack.awaited ((.cond (some elseId) endId, opened) :: rest) ⊆ elseId :: BlockStack.awaited after := by
      simp [after, BlockStack.awaited, Block.awaited]
    refine ((does_setTop (.cond (some elseId) endId) (.cond (some nextElse) endId) [nextElse] [endId] rfl
      (by simp [Block.labels]) (by simp [Block.top?])).post fun _ _ h => h.mono waits).bind fun _ => ?_
    rw [← bind_assoc]
    refine (does_toLabel (fun a => does_jump a pos) ?_ ?_).bind fun _ => ?_
    · simp [BlockStack.labels, Block.labels]
    · simp [after, BlockStack.awaited, Block.awaited]
    refine (does_placeLabel pos (nested.high (List.mem_cons_self ..))).bind fun _ => ?_
    refine (does_toLabel (fun a => does_branchIf c.invert a pos) ?_ ?_).post fun _ _ h => h.tidy
    · simp [BlockStack.labels, Block.labels]
    · simp [after, BlockStack.awaited, Block.awaited]
  · exact .fail _ _
  · exact .fail _ _

theorem does_elsePart : Does Steps Tidy (Asm.elsePart pos) (fun _ => Tidy) := by
  refine .getThen fun s sound tidy => ?_
  split
  · rename_i elseId endId top
    obtain ⟨opened, rest, within⟩ := tidy.innermost top
    have nested := within.nested sound
    refine ((does_setTop (.cond (some elseId) endId) (.cond none endId) [] [endId] rfl
      (by simp [Block.labels]) (by simp [Block.top?])).fromState ⟨fresh_nil s, within⟩).bind fun _ => ?_
    rw [← bind_assoc]
    refine (does_toLabel (fun a => does_jump a pos) ?_ ?_).bind fun _ => ?_
    · simp [BlockStack.labels, Block.labels]
    · simp [BlockStack.awaited, Block.awaited]
    exact (does_placeLabel pos (nested.high (List.mem_cons_self ..))).post fun _ _ h => h.tidy
  · exact .fail _ _
  · exact .fail _ _

theorem does_beginDo : Does Steps Tidy (Asm.beginDo pos) (fun _ => Tidy) := by
  refine .atState fun s sound tidy => ?_
  refine ((does_newLabel []).fromState ⟨fresh_nil s, tidy.within⟩).bind fun beginId => ?_
  refine (does_newLabel [beginId]).bind fun repeatId => ?_
  refine (does_newLabel [beginId, repeatId]).bind fun endId => .atState fun t _ ⟨fresh, within⟩ => ?_
  have high : autoLabelBase ≤ repeatId.toNat := (fresh.range repeatId (by simp)).1
  have within := within.mono (List.subset_cons_self repeatId _)
  refine ((does_placeFresh pos high [beginId, repeatId, endId]).fromState ⟨fresh, within⟩).bind fun _ => ?_
  refine (Does.pre (does_openBlock _ pos) fun u _ h => ⟨h.1, ?_, h.2.2⟩).post fun _ _ h => h.tidy
  rintro _ ⟨⟩
  exact h.2.1

theorem does_skipEmptyLines (n : Nat) : Plain (Asm.skipEmptyLines n) := by
  induction n with
  | zero => exact .pure fun _ _ _ => trivial
  | succ n ih =>
    rw [Asm.skipEmptyLines]
    refine .first does_nextToken fun t => ?_
    split
    · exact ih
    · exact .first (does_unread t) fun _ => .modify fun s _ _ => ⟨acts_read s s.tokens true, trivial⟩

theorem does_peekToken : Plain Asm.peekToken := by
  refine .ofResult fun s _ _ => ?_
  unfold Asm.peekToken
  obtain ⟨e | t, tokens⟩ := s.tokens.peek
  · exact acts_read s tokens s.lineEnded
  · exact ⟨acts_read s tokens s.lineEnded, trivial⟩

theorem does_budget : Plain Asm.budget := .getThen fun _ _ _ => .pure fun _ _ _ => trivial

/-- The top of the innermost loop is at a known address. -/
theorem does_labelTop {b : Block} {opened : Position} {rest : BlockStack} {id : SymbolId} (top : id ∈ b.top?) :
    Does Steps (Within ((b, opened) :: rest) ids) (Asm.labelAddress id)
      (fun a s => s.Known a ∧ Within ((b, opened) :: rest) ids s) := by
  refine .getThen fun s sound within => .pure fun t _ same => ?_
  subst same
  have nested := within.nested sound
  have placed := nested.top _ (List.mem_cons_self ..) id top
  exact ⟨known_label sound (nested.high (b.mem_labels_of_top? top)) placed, within⟩

theorem stable_knownWithin (a : Address) : Stable (Acts []) (fun s => s.Known a ∧ Within bs ids s) :=
  fun s t sound acts h => ⟨stable_known a s t sound acts h.1, stable_within (List.nil_subset _) s t sound acts h.2⟩

section WhileTest

variable (c : Condition) {beginId repeatId endId : SymbolId} {opened : Position} {rest : BlockStack}
  (high : autoLabelBase ≤ beginId.toNat)

/-- A loop that ends with its test does without the label of its end. -/
theorem does_dropLoop :
    Does Steps (Within ((.loop beginId repeatId endId true, opened) :: rest) (BlockStack.awaited rest))
      (Asm.dropEnd endId) (fun _ => Tidy) := by
  refine .modify fun s sound within => ?_
  have nested := within.nested sound
  have owned : endId ∈ (Block.loop beginId repeatId endId true).labels := by simp [Block.labels]
  -- the block is closed first: a label is dropped only if no open loop jumps back to it
  have close : Step s { s with blocks := rest } := .blocks rest nested.tail
  have drop : Step { s with blocks := rest }
      (log { s with symbols := s.symbols.erase endId, blocks := rest } (.dropped endId)) := by
    refine .drop (nested.high owned) fun b mem top => nested.apart owned ?_
    exact List.mem_flatMap.2 ⟨b, mem, b.1.mem_labels_of_top? top⟩
  have tail : s.blocks.tail = rest := by rw [within.blocks]; rfl
  rw [tail]
  refine ⟨.head close (.single drop), within.kept.step (close.grows.trans drop.grows)
    (fun e mem unknown => .inl (Event.mem_of_kind Event.isBlind mem unknown rfl)) ?_⟩
  rintro ⟨id, mem, labelled, absent⟩
  refine .inr ⟨id, mem, labelled, ?_⟩
  by_cases same : endId = id
  · subst same
    exact s.symbols.get?_erase_self endId
  · exact (s.symbols.get?_erase_of_ne same).trans absent

include high in
/-- The test as one branch back. -/
theorem does_testAtEnd {top : Address} :
    Does Steps
      (fun s => s.Known top ∧ Within ((.loop beginId repeatId endId true, opened) :: rest) (BlockStack.awaited rest) s)
      (do
        let _ ← Asm.nextToken
        Asm.branchIf c top pos
        Asm.placeLabel beginId pos
        Asm.dropEnd endId
        Asm.endOfStatement)
      (fun _ => Tidy) := by
  refine (does_nextToken.keeps (stable_knownWithin top)).bind fun _ => ?_
  refine Does.bind
    (((does_branchIf c top pos).frame (stable_knownWithin top)).steps.pre fun _ _ h => ⟨h.1.aims, h⟩) fun _ => ?_
  refine ((does_placeLabel pos high).pre fun _ _ h => h.2.2.mono (List.subset_cons_self ..)).bind fun _ => ?_
  exact does_dropLoop.bind fun _ => does_endOfStatement.tidy

include high in
/-- The test as a branch to the end of the loop. -/
theorem does_testAhead :
    Does Steps (Within ((.loop beginId repeatId endId true, opened) :: rest) (BlockStack.awaited rest))
      (do
        Asm.branchIf c.invert (← Asm.labelAddress endId) pos
        Asm.placeLabel beginId pos
        return Flow.goOn)
      (fun _ => Tidy) := by
  rw [← bind_assoc]
  refine Does.pre ?_ fun _ _ h => h.mono (List.subset_append_right [endId] _)
  refine (does_toLabel (fun a => does_branchIf c.invert a pos) ?_ (List.mem_cons_self ..)).bind fun _ => ?_
  · simp [BlockStack.labels, Block.labels]
  refine ((does_placeLabel pos high).pre fun _ _ h => h.mono (List.subset_cons_self ..)).bind fun _ => ?_
  exact .pure fun _ _ h => h.tidy

end WhileTest

/-- A test waits for the end of its loop, unless the loop ends right after it and one branch back does for both. -/
theorem does_whileTest : Does Steps Tidy (Asm.whileTest pos) (fun _ => Tidy) := by
  refine (does_condition.tidy).bind fun c => .getThen fun s sound tidy => ?_
  split
  · rename_i beginId repeatId endId tested top
    obtain ⟨opened, rest, within⟩ := tidy.innermost top
    have nested := within.nested sound
    have high : autoLabelBase ≤ beginId.toNat := nested.high (List.mem_cons_self ..)
    dsimp only
    split
    · exact .failThen _ _
    · rename_i untested
      obtain rfl : tested = false := by simpa using untested
      refine ((does_setTop (.loop beginId repeatId endId false) (.loop beginId repeatId endId true) []
        [beginId, repeatId, endId] rfl (.refl _) fun _ h => h).fromState ⟨fresh_nil s, within⟩).bind fun _ => ?_
      refine does_endOfStatement.within.bind fun _ => does_budget.within.bind fun n => ?_
      refine (does_skipEmptyLines n).within.bind fun _ => (does_labelTop rfl).bind fun top => ?_
      refine (does_peekToken.keeps (stable_knownWithin top)).bind fun t => .getThen fun u _ known => ?_
      split
      · exact (does_testAtEnd pos c high).fromState known
      · exact (does_testAhead pos c high).fromState known.2
  · exact .fail _ _

end Assembler

end Asm65
