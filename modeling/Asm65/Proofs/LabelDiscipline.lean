import Asm65.Proofs.LabelAccount

/-!
# Labels through a pass

Each statement of a structured block keeps the account of labels, also where it fails: what it held is then lost,
and the error that is recorded says so. Main statement: in every pass of the first run of an assembler, no label
of a block is refused a place; a pass that records no error leaves no block open, and has placed every label it
handed out exactly once, but for the ends of loops that do without.
-/

namespace Asm65
set_option autoImplicit false

/-- Whether the event defines this symbol or label. -/
def Event.defines (id : SymbolId) : Event → Bool
  | .defined k _ => k == id
  | _ => false

namespace Assembler

open BlockStack (Nested)

variable {s t : Assembler} {ids held own : List SymbolId} {bs : BlockStack} {since : Nat}

/-- Steps after which there still is an account. -/
structure Balanced (s t : Assembler) : Prop where
  steps : Steps s t
  owes : s.Owes → t.Owes

instance : Walk Balanced where
  refl _ := ⟨.refl, id⟩
  trans h k := ⟨h.steps.trans k.steps, k.owes ∘ h.owes⟩
  steps h := h.steps

theorem Balanced.of_account (steps : Steps s t) (account : t.Account since held) : Balanced s t :=
  ⟨steps, fun _ => account.owes⟩

theorem balanced_of_acts (sound : s.Sound) (h : Acts ids s t) : Balanced s t :=
  ⟨h.steps, fun ⟨lost, ledger⟩ => ⟨lost, ledger.of_leavesLabels (h.leavesLabels sound)⟩⟩

/-- The open blocks are `bs`, and the statement at work holds the labels `held`. -/
structure Holding (since : Nat) (bs : BlockStack) (held : List SymbolId) (s : Assembler) : Prop where
  blocks : s.blocks = bs
  account : s.Account since held

theorem Account.holding (account : s.Account since held) : s.Holding since s.blocks held := ⟨rfl, account⟩

theorem Holding.nested (holds : s.Holding since bs held) (sound : s.Sound) : Nested bs s.nextLabel s.symbols :=
  holds.blocks ▸ sound.nested

theorem Holding.perm (holds : s.Holding since bs held) (same : held.Perm own) : s.Holding since bs own :=
  ⟨holds.blocks, holds.account.step (.refl s) fun ledger => ledger.perm same⟩

theorem stable_holding : Stable (Acts ids) (Holding since bs held) := fun _ _ sound acts holds =>
  ⟨(acts.quiet sound).blocks.trans holds.blocks, holds.account.acts sound acts⟩

theorem stable_account : Stable (Acts ids) (Account since held) := fun _ _ sound acts account => account.acts sound acts

/-- What is outside blocks keeps what no action changes. -/
theorem Plain.balanced {α : Type} {x : Asm α} {F : Assembler → Prop} (h : Plain x) (stable : Stable (Acts []) F) :
    Does Balanced F x (fun _ => F) :=
  (((h.frame stable).along balanced_of_acts).pre fun _ _ hF => ⟨trivial, hF⟩).post fun _ _ hF => hF.2

/-! ### Primitives -/

theorem balanced_newLabel :
    Does Balanced (fun s => s.Fresh own ∧ Holding since bs held s) Asm.newLabel
      (fun id s => s.Fresh (own ++ [id]) ∧ Holding since bs (held ++ [id]) s) := by
  refine .ofRun fun s sound ⟨fresh, holds⟩ => ?_
  unfold Asm.newLabel
  split
  · rename_i room
    have step : Step s _ := .allot room
    have account := holds.account.step step.grows fun ledger => ledger.allot sound room
    exact .inr ⟨_, _, rfl, .of_account (.single step) account, fresh.allot sound room, holds.blocks, account⟩
  · exact .inl ⟨_, rfl⟩

/-- A new label gets its place. -/
theorem balanced_placeFresh {id : SymbolId} (pos : Position) :
    Does Balanced (fun s => s.Fresh own ∧ Holding since bs (id :: held) s) (Asm.placeLabel id pos)
      (fun _ s => s.Fresh own ∧ (s.symbols.get? id).isSome ∧ Holding since bs held s) := by
  refine .ofRun fun s _ ⟨fresh, holds⟩ => ?_
  obtain ⟨run, step, account⟩ := holds.account.placeLabel pos
  refine .inr ⟨(), _, run, .of_account (.single step) account, ⟨fresh.nodup, fresh.apart, fresh.range⟩, ?_, holds.blocks,
    account⟩
  obtain ⟨lost, ledger, -⟩ := holds.account.ledger
  exact Option.isSome_iff_exists.2 ⟨_, s.symbols.get?_define_self id "" s.here s.pass (ledger.new s.here)⟩

theorem balanced_placeLabels (pos : Position) (labels : List SymbolId) :
    Does Balanced (Holding since bs (labels ++ held)) (Asm.placeLabels pos labels) (fun _ => Holding since bs held) := by
  refine .ofRun fun s _ holds => ?_
  obtain ⟨t, run, steps, blocks, account⟩ := holds.account.placeLabels pos labels
  exact .inr ⟨(), t, run, .of_account steps account, blocks.trans holds.blocks, account⟩

theorem balanced_placeLabel {id : SymbolId} (pos : Position) :
    Does Balanced (Holding since bs (id :: held)) (Asm.placeLabel id pos) (fun _ => Holding since bs held) :=
  ((balanced_placeFresh pos).pre fun s _ h => ⟨fresh_nil s, h⟩).post fun _ _ h => h.2.2

/-- Other blocks are open from here on, and labels move between them and the statement. -/
theorem balanced_setBlocks {after : BlockStack} {f : Assembler → BlockStack} {P : Assembler → Prop}
    (moves : (held ++ BlockStack.pending bs).Perm (own ++ BlockStack.pending after))
    (h : ∀ s, s.Sound → P s → f s = after ∧ Holding since bs held s ∧ Nested after s.nextLabel s.symbols) :
    Does Balanced P (modify fun s => { s with blocks := f s }) (fun _ => Holding since after own) := by
  refine .modify fun s sound hp => ?_
  obtain ⟨same, holds, nested⟩ := h s sound hp
  rw [same]
  have step : Step s { s with blocks := after } := .blocks after nested
  have account : ({ s with blocks := after } : Assembler).Account since own :=
    holds.account.step step.grows fun ledger => ledger.reblock (holds.blocks ▸ moves)
  exact ⟨.of_account (.single step) account, rfl, account⟩

/-- A block with new labels is opened. -/
theorem balanced_openBlock (b : Block) (pos : Position) :
    Does Balanced
      (fun s => s.Fresh b.labels ∧ (∀ id ∈ b.top?, (s.symbols.get? id).isSome) ∧ Holding since bs b.pending s)
      (Asm.openBlock b pos) (fun _ => Holding since ((b, pos) :: bs) []) := by
  have moves : (b.pending ++ BlockStack.pending bs).Perm ([] ++ BlockStack.pending ((b, pos) :: bs)) := .refl _
  refine balanced_setBlocks moves fun s sound ⟨fresh, top, holds⟩ => ⟨?_, holds, ?_⟩
  · rw [holds.blocks]
  · exact (holds.nested sound).push fresh.nodup (holds.blocks ▸ fresh.apart) fresh.range top

/-- The innermost block is replaced by one that has some of its labels, and new ones. -/
theorem balanced_setTop (b after : Block) {opened : Position} {rest : BlockStack} (new old own : List SymbolId)
    (labels : after.labels = new ++ old) (sub : old.Sublist b.labels) (top : ∀ id ∈ after.top?, id ∈ b.top?)
    (moves : (new ++ b.pending).Perm (own ++ after.pending)) :
    Does Balanced (fun s => s.Fresh new ∧ Holding since ((b, opened) :: rest) new s) (Asm.setTop after)
      (fun _ => Holding since ((after, opened) :: rest) own) := by
  have moves : (new ++ BlockStack.pending ((b, opened) :: rest)).Perm
      (own ++ BlockStack.pending ((after, opened) :: rest)) := by
    have wider := moves.append_right (BlockStack.pending rest)
    rwa [List.append_assoc, List.append_assoc] at wider
  refine balanced_setBlocks moves fun s sound ⟨fresh, holds⟩ => ⟨?_, holds, ?_⟩
  · rw [holds.blocks]
    rfl
  · exact nested_setTop b after new old labels sub top sound fresh holds.blocks

/-- A branch or jump to a label of an open block. -/
theorem balanced_toLabel {go : Address → Asm Unit} {id : SymbolId}
    (hgo : ∀ a, Does (Acts [id]) (fun s => s.Aims [id] a) (go a) (fun _ _ => True))
    (owned : id ∈ BlockStack.labels bs) :
    Does Balanced (Holding since bs held) (do go (← Asm.labelAddress id)) (fun _ => Holding since bs held) := by
  unfold Asm.labelAddress
  simp only [bind_assoc, pure_bind]
  refine .getThen fun s sound holds => ?_
  have aims : s.Aims [id] (s.symbols.address id) :=
    aims_label sound ((holds.nested sound).range id owned).1 (List.mem_singleton.2 rfl)
  have stable : Stable (Acts [id]) (Holding since bs held) := stable_holding
  have framed := ((hgo (s.symbols.address id)).frame stable).along balanced_of_acts
  exact (framed.fromState ⟨aims, holds⟩).post fun _ _ h => h.2

/-! ### Statements -/

section Statements

variable (pos : Position)

theorem balanced_condition : Does Balanced (Account since held) Asm.condition (fun _ => Account since held) :=
  does_condition.balanced stable_account

/-- The innermost block, if nothing is held. -/
theorem Account.innermost (account : s.Account since held) {b : Block} (top : BlockStack.top? s.blocks = some b) :
    ∃ opened rest, s.Holding since ((b, opened) :: rest) held := by
  obtain ⟨opened, rest, blocks⟩ := BlockStack.exists_of_top?_eq top
  exact ⟨opened, rest, blocks, account⟩

theorem balanced_beginIf : Does Balanced (Account since []) (Asm.beginIf pos) (fun _ => Account since []) := by
  refine balanced_condition.bind fun c => .atState fun s _ account => ?_
  refine (balanced_newLabel.fromState ⟨fresh_nil s, account.holding⟩).bind fun elseId => ?_
  refine balanced_newLabel.bind fun endId => ?_
  refine ((balanced_openBlock (.cond (some elseId) endId) pos).pre fun t _ h =>
    ⟨h.1, fun _ top => (by cases top), h.2⟩).bind fun _ => ?_
  refine (balanced_toLabel (fun a => does_branchIf c.invert a pos) ?_).post fun _ _ h => h.account
  exact List.mem_append_left _ (List.mem_cons_self ..)

/-- An `elseif` places the label that the test before it branches to, and leaves a new one with the block. -/
theorem balanced_elseIf : Does Balanced (Account since []) (Asm.elseIf pos) (fun _ => Account since []) := by
  refine balanced_condition.bind fun c => .getThen fun s _ account => ?_
  split
  · rename_i elseId endId top
    obtain ⟨opened, rest, holds⟩ := account.innermost top
    refine (balanced_newLabel.fromState ⟨fresh_nil s, holds⟩).bind fun nextElse => ?_
    -- the new label takes the place of `elseId` in the block, and the statement holds `elseId`
    refine (balanced_setTop (.cond (some elseId) endId) (.cond (some nextElse) endId) [nextElse] [endId] [elseId] rfl
      (by simp [Block.labels]) (by simp [Block.top?]) (.swap ..)).bind fun _ => ?_
    rw [← bind_assoc]
    refine (balanced_toLabel (fun a => does_jump a pos) (by simp [BlockStack.labels, Block.labels])).bind fun _ => ?_
    refine (balanced_placeLabel pos).bind fun _ => ?_
    refine (balanced_toLabel (fun a => does_branchIf c.invert a pos) ?_).post fun _ _ h => h.account
    simp [BlockStack.labels, Block.labels]
  · exact .fail _ _
  · exact .fail _ _

theorem balanced_elsePart : Does Balanced (Account since []) (Asm.elsePart pos) (fun _ => Account since []) := by
  refine .getThen fun s _ account => ?_
  split
  · rename_i elseId endId top
    obtain ⟨opened, rest, holds⟩ := account.innermost top
    refine ((balanced_setTop (.cond (some elseId) endId) (.cond none endId) [] [endId] [elseId] rfl
      (by simp [Block.labels]) (by simp [Block.top?]) (.refl _)).fromState ⟨fresh_nil s, holds⟩).bind fun _ => ?_
    rw [← bind_assoc]
    refine (balanced_toLabel (fun a => does_jump a pos) (by simp [BlockStack.labels, Block.labels])).bind fun _ => ?_
    exact (balanced_placeLabel pos).post fun _ _ h => h.account
  · exact .fail _ _
  · exact .fail _ _

theorem balanced_beginDo : Does Balanced (Account since []) (Asm.beginDo pos) (fun _ => Account since []) := by
  refine .atState fun s _ account => ?_
  refine (balanced_newLabel.fromState ⟨fresh_nil s, account.holding⟩).bind fun beginId => ?_
  refine balanced_newLabel.bind fun repeatId => balanced_newLabel.bind fun endId => ?_
  refine Does.bind (.pre (balanced_placeFresh pos) fun t _ h =>
    ⟨h.1, h.2.perm (.swap repeatId beginId [endId])⟩) fun _ => ?_
  refine ((balanced_openBlock (.loop beginId repeatId endId false) pos).pre fun u _ h => ⟨h.1, ?_, h.2.2⟩).post
    fun _ _ h => h.account
  rintro _ ⟨⟩
  exact h.2.1

/-- The block just closed: the statement holds its labels. -/
structure ClosedAccount (since : Nat) (b : Block) (s : Assembler) : Prop where
  account : s.Account since b.pending
  high : ∀ id ∈ b.labels, autoLabelBase ≤ id.toNat

theorem balanced_closeInnermost {b : Block} {opened : Position} {rest : BlockStack} :
    Does Balanced (Holding since ((b, opened) :: rest) []) (Asm.setBlocks rest)
      (fun _ s => (∀ id ∈ b.labels, autoLabelBase ≤ id.toNat) ∧ Holding since rest b.pending s) := by
  refine .atState fun s sound holds => ?_
  have nested := holds.nested sound
  have moves : ([] ++ BlockStack.pending ((b, opened) :: rest)).Perm (b.pending ++ BlockStack.pending rest) := .refl _
  have close : Does Balanced (· = s) (Asm.setBlocks rest) (fun _ => Holding since rest b.pending) :=
    balanced_setBlocks moves fun t _ same => ⟨rfl, same ▸ holds, same ▸ nested.tail⟩
  exact close.post fun _ _ h => ⟨fun _ => nested.high, h⟩

/-- Closing hands over the labels of the block that is found. Blocks skipped on the way are reported, and their labels
get their place. -/
theorem balanced_closeFrom (wanted : Opener) (keyword : String) :
    Does Balanced (Holding since bs []) (Asm.closeFrom pos wanted keyword bs) (fun b => ClosedAccount since b) := by
  induction bs with
  | nil => exact .fail _ _
  | cons first rest ih =>
    obtain ⟨b, opened⟩ := first
    refine balanced_closeInnermost.bind fun _ => ?_
    split
    · exact .pure fun _ _ h => ⟨h.2.account, h.1⟩
    · have report : Does Balanced (fun s => (∀ id ∈ b.labels, autoLabelBase ≤ id.toNat) ∧ Holding since rest b.pending s)
          (modify (·.record (.at_ (.blockNotClosedBefore b.opener.name keyword) pos)))
          (fun _ => Holding since rest (b.pending ++ [])) := by
        refine .modify fun s sound h => ?_
        have acts : Acts [] s (s.record (.at_ (.blockNotClosedBefore b.opener.name keyword) pos)) := .single (.report _)
        rw [List.append_nil]
        exact ⟨balanced_of_acts sound acts, stable_holding s _ sound acts h.2⟩
      exact report.bind fun _ => (balanced_placeLabels pos b.pending).bind fun _ => ih

theorem balanced_closeBlock (wanted : Opener) (keyword : String) :
    Does Balanced (Account since []) (Asm.closeBlock pos wanted keyword) (fun b => ClosedAccount since b) := by
  refine .getThen fun s _ account => ?_
  dsimp only
  split
  · exact (balanced_closeFrom pos wanted keyword).fromState account.holding
  · exact .fail _ _

theorem balanced_placePending (b : Block) :
    Does Balanced (Account since b.pending) (Asm.placeLabels pos b.pending) (fun _ => Account since []) := by
  refine .atState fun s _ account => ?_
  rw [← List.append_nil b.pending] at account
  exact ((balanced_placeLabels pos b.pending).fromState account.holding).post fun _ _ h => h.account

theorem balanced_endIf : Does Balanced (Account since []) (Asm.endIf pos) (fun _ => Account since []) :=
  (balanced_closeBlock pos .ifBlock "ENDIF").bind fun b =>
    (balanced_placePending pos b).pre fun _ _ closed => closed.account

/-- A jump back to the top of the loop just closed. -/
theorem balanced_jumpBack {b : Block} {id : SymbolId} (top : id ∈ b.top?) :
    Does Balanced (ClosedAccount since b) (do Asm.jump (← Asm.labelAddress id) pos)
      (fun _ => Account since b.pending) := by
  unfold Asm.labelAddress
  simp only [bind_assoc, pure_bind]
  refine .getThen fun s sound closed => ?_
  have aims : s.Aims [id] (s.symbols.address id) :=
    aims_label sound (closed.high id (b.mem_labels_of_top? top)) (List.mem_singleton.2 rfl)
  have stable : Stable (Acts [id]) (Account since b.pending) := stable_account
  have jump := ((does_jump (s.symbols.address id) pos).frame stable).along balanced_of_acts
  exact (jump.fromState ⟨aims, closed.account⟩).post fun _ _ h => h.2

theorem balanced_endLoop : Does Balanced (Account since []) (Asm.endLoop pos) (fun _ => Account since []) := by
  refine (balanced_closeBlock pos .doBlock "WEND").bind fun b => ?_
  cases b with
  | loop beginId repeatId endId tested =>
    dsimp only
    rw [← bind_assoc]
    exact (balanced_jumpBack pos rfl).bind fun _ => balanced_placePending pos _
  | cond elseId endId => exact (balanced_placePending pos _).pre fun _ _ closed => closed.account

section WhileTest

variable (c : Condition) {beginId repeatId endId : SymbolId} {opened : Position} {rest : BlockStack}

/-- A loop that ends with its test does without the label of its end. -/
theorem balanced_dropEnd :
    Does Balanced (Holding since ((.loop beginId repeatId endId true, opened) :: rest) []) (Asm.dropEnd endId)
      (fun _ => Account since []) := by
  refine .modify fun s sound holds => ?_
  have nested := holds.nested sound
  have owned : endId ∈ (Block.loop beginId repeatId endId true).labels := by simp [Block.labels]
  have close : Step s { s with blocks := rest } := .blocks rest nested.tail
  have drop : Step { s with blocks := rest }
      (log { s with symbols := s.symbols.erase endId, blocks := rest } (.dropped endId)) := by
    refine .drop (nested.high owned) fun b mem top => nested.apart owned ?_
    exact List.mem_flatMap.2 ⟨b, mem, b.1.mem_labels_of_top? top⟩
  have tail : s.blocks.tail = rest := by rw [holds.blocks]; rfl
  rw [tail]
  have moves : ([] ++ BlockStack.pending s.blocks).Perm ([endId] ++ BlockStack.pending rest) := by
    rw [holds.blocks]
    exact .refl _
  have account := holds.account.step (close.grows.trans drop.grows) fun ledger => (ledger.reblock moves).drop
  exact ⟨.of_account (.head close (.single drop)) account, account⟩

theorem stable_knownHolding (a : Address) : Stable (Acts []) (fun s => s.Known a ∧ Holding since bs held s) :=
  fun s t sound acts h => ⟨stable_known a s t sound acts h.1, stable_holding s t sound acts h.2⟩

/-- The top of the innermost loop is at a known address. -/
theorem balanced_labelTop {b : Block} {id : SymbolId} (top : id ∈ b.top?) :
    Does Balanced (Holding since ((b, opened) :: rest) held) (Asm.labelAddress id)
      (fun a s => s.Known a ∧ Holding since ((b, opened) :: rest) held s) := by
  refine .getThen fun s sound holds => .pure fun t _ same => ?_
  subst same
  have nested := holds.nested sound
  have placed := nested.top _ (List.mem_cons_self ..) id top
  exact ⟨known_label sound (nested.high (b.mem_labels_of_top? top)) placed, holds⟩

/-- The test as one branch back. -/
theorem balanced_testAtEnd {top : Address} :
    Does Balanced
      (fun s => s.Known top ∧ Holding since ((.loop beginId repeatId endId true, opened) :: rest) [beginId] s)
      (do
        let _ ← Asm.nextToken
        Asm.branchIf c top pos
        Asm.placeLabel beginId pos
        Asm.dropEnd endId
        Asm.endOfStatement)
      (fun _ => Account since []) := by
  refine (does_nextToken.balanced (stable_knownHolding top)).bind fun _ => ?_
  refine Does.bind (.pre (((does_branchIf c top pos).frame (stable_knownHolding top)).along balanced_of_acts)
    fun _ _ h => ⟨h.1.aims, h⟩) fun _ => ?_
  refine ((balanced_placeLabel pos).pre fun _ _ h => h.2.2).bind fun _ => ?_
  exact balanced_dropEnd.bind fun _ => does_endOfStatement.balanced stable_account

/-- The test as a branch to the end of the loop. -/
theorem balanced_testAhead :
    Does Balanced (Holding since ((.loop beginId repeatId endId true, opened) :: rest) [beginId])
      (do
        Asm.branchIf c.invert (← Asm.labelAddress endId) pos
        Asm.placeLabel beginId pos
        return Flow.goOn)
      (fun _ => Account since []) := by
  rw [← bind_assoc]
  refine (balanced_toLabel (fun a => does_branchIf c.invert a pos) ?_).bind fun _ => ?_
  · simp [BlockStack.labels, Block.labels]
  exact (balanced_placeLabel pos).bind fun _ => .pure fun _ _ h => h.account

end WhileTest

/-- A test takes one label out of its block and places it. If the end of the loop follows at once, the label of the
end is dropped. -/
theorem balanced_whileTest : Does Balanced (Account since []) (Asm.whileTest pos) (fun _ => Account since []) := by
  refine balanced_condition.bind fun c => .getThen fun s _ account => ?_
  split
  · rename_i beginId repeatId endId tested top
    obtain ⟨opened, rest, holds⟩ := account.innermost top
    dsimp only
    split
    · exact .failThen _ _
    · rename_i untested
      obtain rfl : tested = false := by simpa using untested
      refine ((balanced_setTop (.loop beginId repeatId endId false) (.loop beginId repeatId endId true) []
        [beginId, repeatId, endId] [beginId] rfl (.refl _) (fun _ h => h) (.refl _)).fromState
          ⟨fresh_nil s, holds⟩).bind fun _ => ?_
      refine (does_endOfStatement.balanced stable_holding).bind fun _ => ?_
      refine (does_budget.balanced stable_holding).bind fun n => ?_
      refine ((does_skipEmptyLines n).balanced stable_holding).bind fun _ => ?_
      refine (balanced_labelTop rfl).bind fun top => ?_
      refine (does_peekToken.balanced (stable_knownHolding top)).bind fun t => .getThen fun u _ known => ?_
      split
      · exact (balanced_testAtEnd pos c).fromState known
      · exact (balanced_testAhead pos c).fromState known.2
  · exact .fail _ _

end Statements

/-! ### Passes -/

/-- The account is kept between the statements of a pass. An error that is recorded accounts for what a failed
statement has lost. -/
theorem upkeep_account (since : Nat) : Upkeep Balanced (Account since []) where
  acts := balanced_of_acts
  stable := stable_account
  beginIf := balanced_beginIf
  elseIf := balanced_elseIf
  elsePart := balanced_elsePart
  endIf := balanced_endIf
  beginDo := balanced_beginDo
  whileTest := balanced_whileTest
  endLoop := balanced_endLoop
  record e _ account walk := .record e (walk.owes account.owes) (Nat.le_trans account.since walk.steps.grows.reports)
  begin {s} account := by
    have step : Step s _ := .begin
    have after := account.step step.grows fun ledger => { ledger with }
    exact ⟨.of_account (.single step) after, after⟩
  list {s} listing account := by
    have step : Step s _ := .list listing
    have after := account.step step.grows fun ledger => { ledger with }
    exact ⟨.of_account (.single step) after, after⟩
  stop {s} failed account := by
    have step : Step s _ := .stop failed
    have after := account.step step.grows fun ledger => { ledger with }
    exact ⟨.of_account (.single step) after, after⟩

/-- Closing a block that was left open is reported, and its labels get their place. -/
theorem Account.closeOpen {b : Block} (sound : s.Sound) (account : s.Account since (b.pending ++ held)) (pos : Position) :
    Steps s (s.closeOpen b pos) ∧ (s.closeOpen b pos).blocks = s.blocks ∧ (s.closeOpen b pos).Account since held
      ∧ s.diagnostics.reports < (s.closeOpen b pos).diagnostics.reports := by
  let e : Error := .at_ (.blockNotClosed b.opener.name) pos
  have report : Acts [] s (s.record e) := .single (.report e)
  obtain ⟨t, run, steps, blocks, done⟩ := (account.acts sound report).placeLabels pos b.pending
  have same : s.closeOpen b pos = t := by
    unfold Assembler.closeOpen
    dsimp only
    rw [run]
  rw [same]
  refine ⟨report.steps.trans steps, blocks, done, Nat.lt_of_lt_of_le ?_ steps.grows.reports⟩
  show _ < (s.diagnostics.record e).reports
  rw [Diagnostics.reports_record]
  exact Nat.lt_succ_self _

/-- Closing all blocks that were left open. -/
theorem Account.closeEach (blocks : BlockStack) (sound : s.Sound) (account : s.Account since (BlockStack.pending blocks)) :
    (blocks.foldl (fun s b => s.closeOpen b.1 b.2) s).blocks = s.blocks
      ∧ (blocks.foldl (fun s b => s.closeOpen b.1 b.2) s).Account since []
      ∧ s.diagnostics.reports + blocks.length ≤ (blocks.foldl (fun s b => s.closeOpen b.1 b.2) s).diagnostics.reports := by
  induction blocks generalizing s with
  | nil => exact ⟨rfl, account, Nat.le_refl _⟩
  | cons b rest ih =>
    obtain ⟨steps, same, after, more⟩ := Account.closeOpen sound account b.2
    obtain ⟨blocks, done, most⟩ := ih (sound.steps steps) after
    refine ⟨blocks.trans same, done, Nat.le_trans ?_ most⟩
    rw [List.length_cons]
    omega

theorem acts_recordEach {α : Type} (e : α → Error) (l : List α) (s : Assembler) :
    Acts [] s (l.foldl (fun s a => s.record (e a)) s) := by
  induction l generalizing s with
  | nil => exact .refl
  | cons a rest ih => exact .head (.report (e a)) (ih _)

/-- The end of a pass: if it reports nothing, no block was left open. -/
theorem Account.endPass (sound : s.Sound) (account : s.Account since []) :
    s.endPass.blocks = [] ∧ s.endPass.Account since []
      ∧ s.diagnostics.reports + s.blocks.length ≤ s.endPass.diagnostics.reports := by
  have step := step_closing sound
  have moves : ([] ++ BlockStack.pending s.blocks).Perm (BlockStack.pending s.blocks ++ BlockStack.pending []) := by
    rw [List.nil_append]
    exact .of_eq (List.append_nil _).symm
  have closing := account.step step.grows fun ledger => ledger.reblock moves
  obtain ⟨blocks, closed, most⟩ := closing.closeEach s.blocks (sound.step step)
  have steps := steps_closeAll sound
  rw [endPass_eq]
  split
  · exact ⟨blocks, closed, most⟩
  · have acts := acts_recordEach (fun sym : Symbol => ⟨.publicUndefined sym.name, none⟩)
      (s.closeAll.symbols.toList.filter fun sym => sym.isPublic && sym.address.isUndefined) s.closeAll
    exact ⟨(acts.quiet (sound.steps steps)).blocks.trans blocks, closed.acts (sound.steps steps) acts,
      Nat.le_trans most acts.steps.grows.reports⟩

/-- A pass starts with an empty account, if all entries are from passes before. -/
theorem account_begun (dated : s.symbols.Dated s.pass) (root : Nat) :
    (s.begun root).Account s.diagnostics.reports [] := by
  refine ⟨⟨[], ⟨.nil, .nil, fun mem => (by cases mem), fun {id sym} _ found now => ?_, fun mem => (by cases mem), rfl⟩,
    .inl rfl⟩, Nat.le_refl _⟩
  have before : sym.pass ≤ s.pass := dated id sym found
  have now : sym.pass = s.pass + 1 := now
  omega

/-- How often a label was defined in this pass. -/
def definitions (s : Assembler) (id : SymbolId) : Nat := s.trace.countP (Event.defines id)

/-- A label of a block has been settled as often as it was defined. -/
theorem count_settled {id : SymbolId} (high : autoLabelBase ≤ id.toNat) : s.settled.count id = s.definitions id := by
  unfold settled definitions
  rw [List.count_filterMap]
  congr 1
  funext e
  cases e with
  | defined k a =>
    show ((if autoLabelBase ≤ k.toNat then some k else none) == some id) = (k == id)
    split
    · rfl
    · rename_i low
      have other : k ≠ id := by
        rintro rfl
        exact low high
      exact (beq_eq_false_iff_ne.2 other).symm
  | lookup | refused | label | dropped | operand | narrow | branch | declared | placed | equated => rfl

/-- With nothing held, nothing lost and no block open, a label is placed once, or was given up. -/
theorem Ledger.settled_or_dropped (ledger : s.Ledger [] []) (closed : s.blocks = []) {id : SymbolId}
    (mem : id ∈ s.handed) :
    s.definitions id = 1 ∧ id ∉ s.dropped ∨ s.definitions id = 0 ∧ id ∈ s.dropped ∧ s.symbols.get? id = none := by
  have once : s.handed.count id = 1 := by rw [ledger.nodup.count, if_pos mem]
  have balance := ledger.balance.count_eq id
  rw [closed] at balance
  have split : s.definitions id + s.dropped.count id = 1 := by
    rw [← count_settled (ledger.range mem).1, ← once, balance]
    simp [BlockStack.pending]
  by_cases given : id ∈ s.dropped
  · have := List.count_pos_iff.2 given
    exact .inr ⟨by omega, given, ledger.absent given⟩
  · rw [List.count_eq_zero_of_not_mem given] at split
    exact .inl ⟨split, given⟩

/-- In every pass of the first run, no label of a block is refused a place. If the pass records no error, no block is
open at its end, and every label that was handed out was placed exactly once, unless it is the end of a loop that ends
with its test: then it was given up and has no entry. -/
theorem labels_placed_once (new : s.IsNew) (root n : Nat) :
    let before := afterPasses root s.prepared n
    let after := afterPasses root s.prepared (n + 1)
    (∀ id, .refused id ∈ after.trace → id.toNat < autoLabelBase)
      ∧ (after.diagnostics.reports = before.diagnostics.reports →
        (before.laidOut root).blocks = [] ∧ ∀ id, .label id ∈ after.trace →
          after.definitions id = 1 ∧ .dropped id ∉ after.trace
            ∨ after.definitions id = 0 ∧ .dropped id ∈ after.trace ∧ after.symbols.get? id = none) := by
  intro before after
  have sound : before.Sound := new.prepared.1.afterPasses root n
  have dated : before.symbols.Dated before.pass := dated_afterPasses new.prepared.1 new.dated root n
  have laid := (upkeep_account _).statements (before.begun root).lineBudget (sound.begun root) (account_begun dated root)
  obtain ⟨closed, account, reports⟩ := laid.2.endPass ((sound.begun root).steps laid.1.steps)
  obtain ⟨lost, ledger, complete⟩ := account.ledger
  refine ⟨fun id mem => Nat.lt_of_not_le fun high => ?_, fun silent => ?_⟩
  · have refused := mem_refused high mem
    rw [show after.refused = [] from ledger.accepted] at refused
    cases refused
  · have silent : (before.laidOut root).endPass.diagnostics.reports = before.diagnostics.reports := silent
    have earlier : before.diagnostics.reports ≤ (before.laidOut root).diagnostics.reports := laid.2.since
    have reports : (before.laidOut root).diagnostics.reports + (before.laidOut root).blocks.length
      ≤ (before.laidOut root).endPass.diagnostics.reports := reports
    refine ⟨List.eq_nil_of_length_eq_zero (by omega), fun id mem => ?_⟩
    obtain rfl : lost = [] := complete.resolve_right (Nat.not_lt.2 (Nat.le_of_eq silent))
    rw [← mem_dropped]
    exact ledger.settled_or_dropped closed (mem_handed.2 mem)

/-- A choice, and a loop that ends with its test. -/
def choiceThenLoop : Assembler :=
  ofText "  if eq\n  nop\n  else\n  nop\n  endif\n  do\n  nop\n  while ne\n  wend\n"

/-- In the second pass the end of the choice is placed once, and the end of the loop is given up. -/
theorem labels_placed_once_choice_loop :
    let after := afterPasses 0 choiceThenLoop.prepared 2
    choiceThenLoop.IsNew ∧ after.diagnostics.reports = (afterPasses 0 choiceThenLoop.prepared 1).diagnostics.reports
      ∧ .label 0x8001 ∈ after.trace ∧ after.definitions 0x8001 = 1
      ∧ .label 0x8004 ∈ after.trace ∧ after.definitions 0x8004 = 0 ∧ after.symbols.get? 0x8004 = none := by
  have new : choiceThenLoop.IsNew := isNew_ofText _
  obtain ⟨silent, choice, placed, loop, dropped⟩ :
      (afterPasses 0 choiceThenLoop.prepared 2).diagnostics.reports
          = (afterPasses 0 choiceThenLoop.prepared 1).diagnostics.reports
        ∧ .label 0x8001 ∈ (afterPasses 0 choiceThenLoop.prepared 2).trace
        ∧ .dropped 0x8001 ∉ (afterPasses 0 choiceThenLoop.prepared 2).trace
        ∧ .label 0x8004 ∈ (afterPasses 0 choiceThenLoop.prepared 2).trace
        ∧ .dropped 0x8004 ∈ (afterPasses 0 choiceThenLoop.prepared 2).trace := by
    decide +kernel
  have labels := ((labels_placed_once new 0 1).2 silent).2
  intro after
  have once := (labels 0x8001 choice).resolve_right fun given => placed given.2.1
  have given := (labels 0x8004 loop).resolve_left fun once => once.2 dropped
  exact ⟨new, silent, choice, once.1, loop, given.1, given.2.2⟩

end Assembler

end Asm65
