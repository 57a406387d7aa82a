import Asm65.Proofs.RepeatedStatement

/-!
# Blocks that are repeated

The labels of structured blocks are numbered in the order of the blocks, so the next pass hands out the same ones. One
of them may vanish: the end of a loop is dropped where test and end of the loop become one branch. While it is not known
whether it will be, nothing is said about its address, and nothing asks for it.
-/

namespace Asm65
set_option autoImplicit false

namespace Assembler

variable {f s t u : Assembler} {E : SymbolId → Prop} {α β : Type} {k : SymbolId}

theorem echoes_condition : Echoes f Asm.condition := by
  refine .bind echoes_nextToken fun token => ?_
  split
  · exact .pure _
  · exact .fail _ _

theorem echoes_skipEmptyLines (n : Nat) : Echoes f (Asm.skipEmptyLines n) := by
  induction n with
  | zero => exact .pure ()
  | succ n ih =>
    rw [Asm.skipEmptyLines]
    refine .bind echoes_nextToken fun token => ?_
    split
    · exact ih
    · refine .bind (echoes_unread token) fun _ => ?_
      exact Harmless.echoes ⟨fun _ => ⟨rfl, rfl⟩, fun _ => rfl, fun h => { h with }, fun _ => rfl⟩

theorem echoes_peekToken : Echoes f Asm.peekToken := by
  intro s a t run
  unfold Asm.peekToken at run
  cases found : s.tokens.peek with
  | mk outcome tokens =>
    rw [found] at run
    cases outcome with
    | error e => cases run
    | ok token =>
      cases run
      refine ⟨⟨rfl, rfl⟩, fun E leads => ⟨{ leads with }, fun same => ⟨?_, same⟩⟩⟩
      have found : (ahead f s).tokens.peek = (.ok a, tokens) := found
      rw [Asm.peekToken, found]
      rfl

theorem Echoes.sameBlocks {x : Asm α} (h : Echoes f x) {a : α} (run : x s = .ok a t) : SameBlocks s t := (h s run).1

end Assembler

/-! ### Labels that may be dropped -/

/-- The label that a test at the end of the loop may drop. -/
def Block.droppable? : Block → Option SymbolId
  | .loop _ _ endId false => some endId
  | _ => none

theorem Block.mem_labels_of_droppable? {b : Block} {id : SymbolId} (h : b.droppable? = some id) : id ∈ b.labels := by
  cases b with
  | cond elseId endId => cases h
  | loop beginId repeatId endId tested =>
    cases tested with
    | true => cases h
    | false =>
      cases h
      simp [labels]

namespace BlockStack

/-- The labels that tests still to come may drop. -/
def droppable (blocks : BlockStack) : List SymbolId := blocks.filterMap (·.1.droppable?)

variable {blocks rest : BlockStack} {b : Block} {pos : Position} {next : Nat} {symbols : SymbolTable} {id : SymbolId}

theorem droppable_cons_of_none (plain : b.droppable? = none) : droppable ((b, pos) :: rest) = droppable rest :=
  List.filterMap_cons_none plain

theorem droppable_subset_cons : droppable rest ⊆ droppable ((b, pos) :: rest) := by
  intro id mem
  obtain ⟨c, mem, own⟩ := List.mem_filterMap.1 mem
  exact List.mem_filterMap.2 ⟨c, List.mem_cons_of_mem _ mem, own⟩

theorem mem_labels_of_mem_droppable (h : id ∈ droppable blocks) : id ∈ labels blocks := by
  obtain ⟨b, mem, own⟩ := List.mem_filterMap.1 h
  exact List.mem_flatMap.2 ⟨b, mem, Block.mem_labels_of_droppable? own⟩

theorem Nested.suffix (nested : Nested blocks next symbols) (outer : rest <:+ blocks) : Nested rest next symbols := by
  obtain ⟨inner, rfl⟩ := outer
  induction inner with
  | nil => exact nested
  | cons b inner ih => exact ih nested.tail

/-- A block's labels are not for the blocks around it to drop. -/
theorem Nested.not_mem_droppable (nested : Nested ((b, pos) :: rest) next symbols) (own : id ∈ b.labels) :
    id ∉ droppable rest :=
  fun dropped => nested.apart own (mem_labels_of_mem_droppable dropped)

/-- Neither is a label that is not handed out yet. -/
theorem Nested.not_mem_droppable_of_le (nested : Nested blocks next symbols) (new : next ≤ id.toNat) :
    id ∉ droppable blocks := by
  intro dropped
  have old := (nested.range id (mem_labels_of_mem_droppable dropped)).2
  omega

end BlockStack

namespace Assembler

open BlockStack (Nested droppable)

variable {f s t u : Assembler} {E : SymbolId → Prop} {α β : Type} {k : SymbolId}

/-- A label that the pass may still drop: one that is not handed out yet, or the end of an open loop without test. -/
def Erasable (s : Assembler) (k : SymbolId) : Prop := s.nextLabel ≤ k.toNat ∨ k ∈ droppable s.blocks

theorem Erasable.high {symbols : SymbolTable} (nested : Nested s.blocks s.nextLabel symbols) (h : s.Erasable k) :
    autoLabelBase ≤ k.toNat := by
  obtain later | dropped := h
  · exact Nat.le_trans nested.base later
  · exact (nested.range k (BlockStack.mem_labels_of_mem_droppable dropped)).1

theorem not_erasable (given : k.toNat < s.nextLabel) (kept : k ∉ droppable s.blocks) : ¬ s.Erasable k := by
  rintro (later | dropped)
  · omega
  · exact kept dropped

/-- A label of what was the innermost block. -/
theorem not_erasable_of_top {b : Block} {pos : Position} {rest : BlockStack} {next : Nat} {symbols : SymbolTable}
    (nested : Nested ((b, pos) :: rest) next symbols) (own : k ∈ b.labels) (more : next ≤ s.nextLabel)
    (outer : droppable s.blocks = droppable rest) : ¬ s.Erasable k := by
  have given := (nested.range k (List.mem_append_left _ own)).2
  refine not_erasable (by omega) ?_
  rw [outer]
  exact nested.not_mem_droppable own

theorem SameBlocks.nested {symbols : SymbolTable} (still : SameBlocks s t) (nested : Nested s.blocks s.nextLabel symbols) :
    Nested t.blocks t.nextLabel symbols := by
  rw [still.blocks, still.nextLabel]
  exact nested

theorem SameBlocks.erasable (still : SameBlocks s t) : t.Erasable = s.Erasable := by
  unfold Erasable
  rw [still.blocks, still.nextLabel]

/-- What `x` does from `s`, it does again in the next pass. Before it the labels in `E` may be dropped, after it those
that the state says. -/
def Repeats (f : Assembler) (E : SymbolId → Prop) (s : Assembler) (x : Asm α) : Prop :=
  ∀ ⦃a t⦄, x s = .ok a t → Leads f t.Erasable t → Echo f E s x a t

/-- Like `Echoes`, for a computation that asks for the addresses of the labels `ids` or gives them. -/
def EchoesWith (f : Assembler) (ids : List SymbolId) (x : Asm α) : Prop :=
  ∀ ⦃s a t⦄, x s = .ok a t → SameBlocks s t ∧ ∀ ⦃E⦄, (∀ id ∈ ids, ¬ E id) → Leads f E t → Echo f E s x a t

variable {ids : List SymbolId} {x : Asm α} {g : α → Asm β}

namespace EchoesWith

theorem of (h : Echoes f x) : EchoesWith f ids x := by
  intro s a t run
  obtain ⟨still, echo⟩ := h s run
  exact ⟨still, fun E _ leads => echo leads⟩

theorem bind (hx : EchoesWith f ids x) (hg : ∀ a, EchoesWith f ids (g a)) : EchoesWith f ids (x >>= g) := by
  intro s b t run
  obtain ⟨a, u, first, rest⟩ := exists_of_bind_eq_ok run
  obtain ⟨still, echo⟩ := hx first
  obtain ⟨still', echo'⟩ := hg a rest
  exact ⟨still.trans still', fun E safe leads => (echo' safe leads).bind fun leads => echo safe leads⟩

theorem repeats (h : EchoesWith f ids x) (safe : ∀ id ∈ ids, ¬ s.Erasable id) : Repeats f s.Erasable s x := by
  intro a t run leads
  obtain ⟨still, echo⟩ := h run
  rw [still.erasable] at leads
  exact echo safe leads

end EchoesWith

namespace Repeats

theorem of (h : Echoes f x) : Repeats f s.Erasable s x := by
  intro a t run leads
  obtain ⟨still, echo⟩ := h s run
  rw [still.erasable] at leads
  exact echo leads

theorem bind (hx : Repeats f E s x) (hg : ∀ a u, x s = .ok a u → Repeats f u.Erasable u (g a)) :
    Repeats f E s (x >>= g) := by
  intro b t run leads
  obtain ⟨a, u, first, rest⟩ := exists_of_bind_eq_ok run
  have later := hg a u first rest leads
  have now := hx first later.leads
  refine ⟨now.leads, fun same => ?_⟩
  obtain ⟨again, same⟩ := now.again same
  rw [bind_eq again]
  exact later.again same

theorem mono (h : Repeats f s.Erasable s x) (sub : ∀ k, s.Erasable k → E k) (high : ∀ {k}, E k → autoLabelBase ≤ k.toNat) :
    Repeats f E s x := by
  intro a t run leads
  obtain ⟨leads, again⟩ := h run leads
  exact ⟨leads.mono sub high, again⟩

/-- The same labels may be dropped after the first step as before. -/
theorem step (hx : ∀ a u, x s = .ok a u → Leads f E u → Echo f E s x a u)
    (hg : ∀ a u, x s = .ok a u → Repeats f E u (g a)) : Repeats f E s (x >>= g) := by
  intro b t run leads
  obtain ⟨a, u, first, rest⟩ := exists_of_bind_eq_ok run
  exact (hg a u first rest leads).bind (hx a u first)

/-- A computation that first does what leaves blocks alone. -/
theorem after (hx : Echoes f x) (hg : ∀ a u, SameBlocks s u → Repeats f u.Erasable u (g a)) :
    Repeats f s.Erasable s (x >>= g) :=
  (of hx).bind fun a u run => hg a u (hx.sameBlocks run)

/-- Labels may be asked for and given as long as they are not dropped. -/
theorem within (hx : EchoesWith f ids x) (safe : ∀ id ∈ ids, ¬ E id) (hg : ∀ a u, SameBlocks s u → Repeats f E u (g a)) :
    Repeats f E s (x >>= g) :=
  step (fun _ _ run => (hx run).2 safe) fun a u run => hg a u (hx run).1

theorem get {g : Assembler → Asm β} (same : g (ahead f s) = g s) (hg : Repeats f E s (g s)) :
    Repeats f E s (MonadState.get >>= g) := by
  intro b t run leads
  have echo := hg run leads
  refine ⟨echo.leads, fun files => ?_⟩
  show g (ahead f s) (ahead f s) = _ ∧ _
  rw [same]
  exact echo.again files

end Repeats

/-! ### Parts of the statements -/

/-- The address of a label that the pass does not drop. -/
theorem echoesWith_labelAddress (mem : k ∈ ids) : EchoesWith f ids (Asm.labelAddress k) := by
  intro s a t run
  cases run
  refine ⟨.refl s, fun E safe leads => ⟨leads, fun files => ⟨?_, files⟩⟩⟩
  have address : (ahead f s).symbols.address k = s.symbols.address k :=
    (SymbolTable.address_renewed ..).trans (leads.address (safe k mem)).symm
  show EStateM.Result.ok ((ahead f s).symbols.address k) (ahead f s) = _
  rw [address]

theorem echoesWith_placeLabel (done : f.Done) (pos : Position) (mem : k ∈ ids) :
    EchoesWith f ids (Asm.placeLabel k pos) := by
  intro s a t run
  have run : Asm.defineId k "" s.here pos s = .ok () t := run
  refine ⟨?_, fun E safe leads => ?_⟩
  · obtain ⟨-, refused⟩ | ⟨-, ran⟩ := defineId_eq k "" s.here pos s
    · rw [refused] at run; cases run
    · rw [ran] at run
      cases run
      exact ⟨rfl, rfl⟩
  · have echo := echo_defineId done run leads (safe k mem)
    exact ⟨echo.leads, echo.again⟩

theorem echoesWith_placeLabels (done : f.Done) (pos : Position) {labels : List SymbolId} (sub : labels ⊆ ids) :
    EchoesWith f ids (Asm.placeLabels pos labels) := by
  induction labels with
  | nil => exact .of (.pure ())
  | cons id rest ih =>
    obtain ⟨mem, sub⟩ := List.cons_subset.1 sub
    exact .bind (echoesWith_placeLabel done pos mem) fun _ => ih sub

theorem exists_of_newLabel {id : SymbolId} (run : Asm.newLabel s = .ok id t) :
    s.nextLabel < 0x10000 ∧ id = .ofNat s.nextLabel
      ∧ t = log { s with nextLabel := s.nextLabel + 1 } (.label (.ofNat s.nextLabel)) := by
  unfold Asm.newLabel at run
  by_cases room : s.nextLabel < 0x10000
  · rw [if_pos room] at run
    cases run
    exact ⟨room, rfl, rfl⟩
  · rw [if_neg room] at run
    cases run

/-- Labels are handed out in order. -/
theorem of_newLabel {id : SymbolId} (run : Asm.newLabel s = .ok id t) :
    id.toNat = s.nextLabel ∧ t.nextLabel = s.nextLabel + 1 ∧ t.blocks = s.blocks := by
  obtain ⟨room, rfl, rfl⟩ := exists_of_newLabel run
  exact ⟨UInt16.toNat_ofNat_of_lt' room, rfl, rfl⟩

theorem echo_newLabel {id : SymbolId} (run : Asm.newLabel s = .ok id t) (leads : Leads f E t) :
    Echo f E s Asm.newLabel id t := by
  obtain ⟨room, rfl, rfl⟩ := exists_of_newLabel run
  refine ⟨{ leads with }, fun files => ⟨?_, files⟩⟩
  have room : (ahead f s).nextLabel < 0x10000 := room
  rw [Asm.newLabel, if_pos room]
  rfl

theorem of_openBlock {b : Block} {pos : Position} (run : Asm.openBlock b pos s = .ok () t) :
    t.blocks = (b, pos) :: s.blocks ∧ t.nextLabel = s.nextLabel := by
  cases run
  exact ⟨rfl, rfl⟩

theorem of_setTop {b c : Block} {pos : Position} {rest : BlockStack} (top : s.blocks = (b, pos) :: rest)
    (run : Asm.setTop c s = .ok () t) : t.blocks = (c, pos) :: rest ∧ t.nextLabel = s.nextLabel := by
  cases run
  exact ⟨congrArg (BlockStack.setTop · c) top, rfl⟩

/-- A change of the open blocks. -/
theorem echo_blocks {h : BlockStack → BlockStack}
    (run : (modify fun s => { s with blocks := h s.blocks } : Asm Unit) s = .ok () t) (leads : Leads f E t) :
    Echo f E s (modify fun s => { s with blocks := h s.blocks }) () t := by
  cases run
  exact ⟨{ leads with }, fun files => ⟨rfl, files⟩⟩

theorem echo_openBlock {b : Block} {pos : Position} (run : Asm.openBlock b pos s = .ok () t) (leads : Leads f E t) :
    Echo f E s (Asm.openBlock b pos) () t :=
  echo_blocks (h := fun blocks => (b, pos) :: blocks) run leads

theorem echo_setTop {b : Block} (run : Asm.setTop b s = .ok () t) (leads : Leads f E t) : Echo f E s (Asm.setTop b) () t :=
  echo_blocks (h := fun blocks => BlockStack.setTop blocks b) run leads

section

variable {symbols : SymbolTable} (nested : Nested s.blocks s.nextLabel symbols)

include nested

/-- What may be dropped after a statement could be dropped before. -/
theorem Echo.widen {a : α} (h : Echo f E s x a t) (sub : ∀ k, E k → s.Erasable k) : Echo f s.Erasable s x a t :=
  ⟨h.leads.mono sub (Erasable.high nested), h.again⟩

theorem repeats_newLabel : Repeats f s.Erasable s Asm.newLabel := by
  intro new t run leads
  refine Echo.widen nested (echo_newLabel run leads) fun k => Or.imp ?_ ?_
  · obtain ⟨-, next, -⟩ := of_newLabel run
    omega
  · obtain ⟨-, -, blocks⟩ := of_newLabel run
    rw [blocks]
    exact id

theorem nested_of_newLabel (run : Asm.newLabel s = .ok k t) : Nested t.blocks t.nextLabel symbols := by
  obtain ⟨-, next, blocks⟩ := of_newLabel run
  rw [blocks]
  exact nested.mono (by omega) fun _ _ _ _ placed => placed

theorem repeats_openBlock {b : Block} (pos : Position) (plain : b.droppable? = none) :
    Repeats f s.Erasable s (Asm.openBlock b pos) := by
  intro _ t run leads
  refine Echo.widen nested (echo_openBlock run leads) fun k => ?_
  obtain ⟨blocks, next⟩ := of_openBlock run
  rw [Erasable, blocks, next, BlockStack.droppable_cons_of_none plain]
  exact id

theorem repeats_setBlocks {blocks : BlockStack} (fewer : droppable blocks ⊆ droppable s.blocks) :
    Repeats f s.Erasable s (Asm.setBlocks blocks) := by
  intro _ t run leads
  cases run
  exact Echo.widen nested (echo_blocks (h := fun _ => blocks) rfl leads) fun k => Or.imp id fun mem => fewer mem

theorem repeats_setTop {b c : Block} {pos : Position} {rest : BlockStack} (top : s.blocks = (b, pos) :: rest)
    (plain : c.droppable? = none) : Repeats f s.Erasable s (Asm.setTop c) := by
  intro _ t run leads
  refine Echo.widen nested (echo_setTop run leads) fun k => Or.imp ?_ ?_
  · rw [(of_setTop top run).2]
    exact id
  · rw [(of_setTop top run).1, top, BlockStack.droppable_cons_of_none plain]
    exact fun mem => BlockStack.droppable_subset_cons mem

end

/-! ### Conditions -/

section

variable {symbols : SymbolTable} (nested : Nested s.blocks s.nextLabel symbols) (done : f.Done) {pos : Position}

include nested done

/-- The start of an `if` is repeated: the label that it branches to is not one that the pass may still drop. -/
theorem repeats_beginIf : Repeats f s.Erasable s (Asm.beginIf pos) := by
  refine .after echoes_condition fun c s₁ still => ?_
  have nested := still.nested nested
  refine (repeats_newLabel nested).bind fun elseId s₂ first => ?_
  have nested₂ := nested_of_newLabel nested first
  refine (repeats_newLabel nested₂).bind fun endId s₃ second => ?_
  refine (repeats_openBlock (nested_of_newLabel nested₂ second) pos rfl).bind fun _ s₄ opened => ?_
  have safe : ∀ id ∈ [elseId], ¬ s₄.Erasable id := by
    rw [List.forall_mem_singleton]
    obtain ⟨number, next, blocks⟩ := of_newLabel first
    obtain ⟨-, next', blocks'⟩ := of_newLabel second
    obtain ⟨inside, kept⟩ := of_openBlock opened
    refine not_erasable (by omega) ?_
    rw [inside, BlockStack.droppable_cons_of_none rfl, blocks', blocks]
    exact nested.not_mem_droppable_of_le (Nat.le_of_eq number.symm)
  refine EchoesWith.repeats ?_ safe
  refine (echoesWith_labelAddress (List.mem_singleton_self _)).bind fun target => ?_
  exact .of (echoes_branchIf done c.invert target pos)

/-- An `elseif` is repeated; none of its three labels may still be dropped. -/
theorem repeats_elseIf : Repeats f s.Erasable s (Asm.elseIf pos) := by
  refine .after echoes_condition fun c s₁ still => .get rfl ?_
  have nested := still.nested nested
  split
  · rename_i elseId endId top
    obtain ⟨opened, rest, blocks⟩ := BlockStack.exists_of_top?_eq top
    refine (repeats_newLabel nested).bind fun nextElse s₂ handed => ?_
    have nested₂ := nested_of_newLabel nested handed
    obtain ⟨number, next, same⟩ := of_newLabel handed
    have blocks₂ := same.trans blocks
    refine (repeats_setTop nested₂ blocks₂ rfl).bind fun _ s₃ set => ?_
    obtain ⟨inside, kept⟩ := of_setTop blocks₂ set
    have outer : droppable s₃.blocks = droppable rest := by rw [inside, BlockStack.droppable_cons_of_none rfl]
    rw [blocks] at nested
    have nextSafe : ¬ s₃.Erasable nextElse := by
      refine not_erasable (by omega) ?_
      rw [outer]
      exact nested.tail.not_mem_droppable_of_le (Nat.le_of_eq number.symm)
    have safe : ∀ id ∈ [nextElse, elseId, endId], ¬ s₃.Erasable id :=
      List.forall_mem_cons.2 ⟨nextSafe, fun id own => not_erasable_of_top nested own (by omega) outer⟩
    refine EchoesWith.repeats ?_ safe
    refine (echoesWith_labelAddress (by simp)).bind fun target => ?_
    refine (EchoesWith.of (echoes_jump done target pos)).bind fun _ => ?_
    refine (echoesWith_placeLabel done pos (by simp)).bind fun _ => ?_
    refine (echoesWith_labelAddress (by simp)).bind fun target => ?_
    exact .of (echoes_branchIf done c.invert target pos)
  · exact .of (.fail _ _)
  · exact .of (.fail _ _)

/-- So is an `else`, with the two labels of its block. -/
theorem repeats_elsePart : Repeats f s.Erasable s (Asm.elsePart pos) := by
  refine .get rfl ?_
  split
  · rename_i elseId endId top
    obtain ⟨opened, rest, blocks⟩ := BlockStack.exists_of_top?_eq top
    refine (repeats_setTop nested blocks rfl).bind fun _ s₁ set => ?_
    obtain ⟨inside, kept⟩ := of_setTop blocks set
    have outer : droppable s₁.blocks = droppable rest := by rw [inside, BlockStack.droppable_cons_of_none rfl]
    rw [blocks] at nested
    have safe : ∀ id ∈ [elseId, endId], ¬ s₁.Erasable id := fun id own => not_erasable_of_top nested own (by omega) outer
    refine EchoesWith.repeats ?_ safe
    refine (echoesWith_labelAddress (by simp)).bind fun target => ?_
    refine (EchoesWith.of (echoes_jump done target pos)).bind fun _ => ?_
    exact echoesWith_placeLabel done pos (by simp)
  · exact .of (.fail _ _)
  · exact .of (.fail _ _)

end

/-! ### Closing a block -/

section

variable {symbols : SymbolTable} (done : f.Done) {pos : Position} {wanted : Opener} {keyword : String}

include done

/-- A block closes together with those inside it. -/
theorem of_closeFrom {blocks : BlockStack} {b : Block} (top : s.blocks = blocks)
    (run : Asm.closeFrom pos wanted keyword blocks s = .ok b t) :
    ∃ opened, (b, opened) :: t.blocks <:+ s.blocks ∧ t.nextLabel = s.nextLabel := by
  induction blocks generalizing s with
  | nil => cases run
  | cons first rest ih =>
    obtain ⟨c, opened⟩ := first
    obtain ⟨_, s₁, set, run⟩ := exists_of_bind_eq_ok run
    cases set
    by_cases own : c.opener = wanted
    · rw [if_pos own] at run
      cases run
      exact ⟨opened, top ▸ List.suffix_refl _, rfl⟩
    · rw [if_neg own] at run
      obtain ⟨_, s₂, reported, run⟩ := exists_of_bind_eq_ok run
      cases reported
      obtain ⟨_, s₃, placed, run⟩ := exists_of_bind_eq_ok run
      obtain ⟨still, -⟩ := echoesWith_placeLabels done pos (List.Subset.refl _) placed
      obtain ⟨opened, outer, next⟩ := ih still.blocks run
      refine ⟨opened, ?_, next.trans still.nextLabel⟩
      rw [still.blocks] at outer
      rw [top]
      exact outer.trans (List.suffix_cons ..)

/-- Closing is repeated; the labels of blocks that are skipped may not be dropped any more. -/
theorem repeats_closeFrom {blocks : BlockStack} (nested : Nested s.blocks s.nextLabel symbols) (top : s.blocks = blocks) :
    Repeats f s.Erasable s (Asm.closeFrom pos wanted keyword blocks) := by
  induction blocks generalizing s with
  | nil => exact .of (.fail _ _)
  | cons first rest ih =>
    obtain ⟨b, opened⟩ := first
    refine (repeats_setBlocks nested ?_).bind fun _ s₁ set => ?_
    · rw [top]
      exact BlockStack.droppable_subset_cons
    cases set
    split
    · exact .of (.pure b)
    rw [top] at nested
    refine .after (harmless_record done _).echoes fun _ s₂ still => ?_
    have pending : ∀ id ∈ b.pending, ¬ s₂.Erasable id := by
      intro id own
      rw [still.erasable]
      exact not_erasable_of_top nested (b.pending_subset_labels own) (Nat.le_refl _) rfl
    have placing := echoesWith_placeLabels done pos (List.Subset.refl b.pending)
    refine (placing.repeats pending).bind fun _ s₃ placed => ?_
    have still := still.trans (placing placed).1
    exact ih (still.nested nested.tail) still.blocks

theorem repeats_closeBlock (nested : Nested s.blocks s.nextLabel symbols) :
    Repeats f s.Erasable s (Asm.closeBlock pos wanted keyword) := by
  refine .get rfl ?_
  dsimp only
  split
  · exact repeats_closeFrom done nested rfl
  · exact .of (.fail _ _)

/-- The labels of a block that has been closed. -/
theorem not_erasable_of_closeBlock {b : Block} (nested : Nested s.blocks s.nextLabel symbols)
    (run : Asm.closeBlock pos wanted keyword s = .ok b t) : ∀ id ∈ b.labels, ¬ t.Erasable id := by
  have run : (if BlockStack.has s.blocks wanted then Asm.closeFrom pos wanted keyword s.blocks
    else Asm.fail (.withoutOpener keyword wanted.name) pos) s = .ok b t := run
  by_cases has : BlockStack.has s.blocks wanted
  · rw [if_pos has] at run
    obtain ⟨opened, outer, next⟩ := of_closeFrom done rfl run
    intro id own
    exact not_erasable_of_top (nested.suffix outer) own (Nat.le_of_eq next.symm) rfl
  · rw [if_neg has] at run
    cases run

theorem repeats_endIf (nested : Nested s.blocks s.nextLabel symbols) : Repeats f s.Erasable s (Asm.endIf pos) := by
  refine (repeats_closeBlock done nested).bind fun b s₁ closed => ?_
  have safe := not_erasable_of_closeBlock done nested closed
  have pending : ∀ id ∈ b.pending, ¬ s₁.Erasable id := fun id own => safe id (b.pending_subset_labels own)
  exact (echoesWith_placeLabels done pos (List.Subset.refl b.pending)).repeats pending

theorem repeats_endLoop (nested : Nested s.blocks s.nextLabel symbols) : Repeats f s.Erasable s (Asm.endLoop pos) := by
  refine (repeats_closeBlock done nested).bind fun b s₁ closed => ?_
  have safe := not_erasable_of_closeBlock done nested closed
  refine EchoesWith.repeats ?_ safe
  have last : EchoesWith f b.labels (Asm.placeLabels pos b.pending) := echoesWith_placeLabels done pos b.pending_subset_labels
  cases b with
  | cond elseId endId => exact .bind (.of (.pure ())) fun _ => last
  | loop beginId repeatId endId tested =>
    refine (echoesWith_labelAddress (by simp [Block.labels])).bind fun target => ?_
    exact (EchoesWith.of (echoes_jump done target pos)).bind fun _ => last

/-! ### Loops -/

/-- The end of the loop may be dropped from now on. -/
theorem repeats_beginDo (nested : Nested s.blocks s.nextLabel symbols) : Repeats f s.Erasable s (Asm.beginDo pos) := by
  intro _ t run leads
  obtain ⟨beginId, s₁, first, run⟩ := exists_of_bind_eq_ok run
  obtain ⟨repeatId, s₂, second, run⟩ := exists_of_bind_eq_ok run
  obtain ⟨endId, s₃, third, run⟩ := exists_of_bind_eq_ok run
  obtain ⟨_, s₄, placed, opened⟩ := exists_of_bind_eq_ok run
  have placing : EchoesWith f [repeatId] (Asm.placeLabel repeatId pos) :=
    echoesWith_placeLabel done pos (List.mem_singleton_self _)
  obtain ⟨still, echo⟩ := placing placed
  obtain ⟨-, next₁, blocks₁⟩ := of_newLabel first
  obtain ⟨number, next₂, blocks₂⟩ := of_newLabel second
  obtain ⟨last, next₃, blocks₃⟩ := of_newLabel third
  obtain ⟨blocks, next⟩ := of_openBlock opened
  have next : t.nextLabel = s.nextLabel + 3 := by rw [next, still.nextLabel, next₃, next₂, next₁]
  have dropped : droppable t.blocks = endId :: droppable s.blocks := by
    rw [blocks, still.blocks, blocks₃, blocks₂, blocks₁]
    rfl
  have safe : ¬ t.Erasable repeatId := by
    refine not_erasable (by omega) ?_
    rw [dropped, List.mem_cons, not_or]
    refine ⟨fun same => ?_, nested.not_mem_droppable_of_le (by omega)⟩
    rw [same] at number
    omega
  -- while the end of the loop has a number but no block yet, the states do not count it among the labels that may be
  -- dropped; so those of `t` are taken all along
  refine Echo.widen nested (E := t.Erasable) ?_ fun k => ?_
  · refine Echo.bind ?_ (echo_newLabel first)
    refine Echo.bind ?_ (echo_newLabel second)
    refine Echo.bind ?_ (echo_newLabel third)
    refine Echo.bind ?_ (echo (List.forall_mem_singleton.2 safe))
    exact echo_openBlock opened leads
  · rintro (later | mem)
    · exact .inl (by omega)
    · rw [dropped, List.mem_cons] at mem
      obtain rfl | mem := mem
      · exact .inl (by omega)
      · exact .inr mem

section WhileTest

variable {beginId repeatId endId : SymbolId} {opened : Position} {rest : BlockStack}
  (nested : Nested ((.loop beginId repeatId endId false, opened) :: rest) s.nextLabel symbols)
  (inside : s.blocks = (.loop beginId repeatId endId true, opened) :: rest)
  (high : ∀ {k}, E k → autoLabelBase ≤ k.toNat) (sub : ∀ k, s.Erasable k → E k)

include nested inside high sub

omit done in
/-- The end of a loop is dropped again, as the pass ends without it. -/
theorem repeats_dropEnd (dropped : E endId) : Repeats f E s (Asm.dropEnd endId) := by
  intro _ t run leads
  have outer : droppable s.blocks = droppable rest := by rw [inside]; rfl
  have same : t.Erasable = s.Erasable := by
    cases run
    show (fun k => s.nextLabel ≤ k.toNat ∨ k ∈ droppable s.blocks.tail) = _
    unfold Erasable
    rw [outer, inside, List.tail_cons]
  rw [same] at leads
  cases run
  have own : endId ∈ (Block.loop beginId repeatId endId false).labels := by simp [Block.labels]
  have kept : ¬ s.Erasable endId := not_erasable_of_top nested own (Nat.le_refl _) outer
  have gone : f.symbols.get? endId = none := leads.absent kept (nested.high own) (SymbolTable.get?_erase_self ..)
  have other {k : SymbolId} (safe : ¬ E k) : (s.symbols.erase endId).get? k = s.symbols.get? k := by
    refine s.symbols.get?_erase_of_ne fun same => safe ?_
    rw [← same]
    exact dropped
  have safe {k : SymbolId} (h : ¬ E k) : ¬ s.Erasable k := fun mem => h (sub k mem)
  refine ⟨{ leads with labels := high, address := ?_, entry := ?_, absent := ?_ }, fun files => ⟨?_, files⟩⟩
  · intro k h
    rw [← leads.address (safe h)]
    exact (SymbolTable.address_congr (other h)).symm
  · intro k sym h entry
    exact leads.entry (safe h) ((other h).trans entry)
  · intro k h high entry
    exact leads.absent (safe h) high ((other h).trans entry)
  · have again : (ahead f s).symbols.erase endId = _ := SymbolTable.erase_renewed gone
    show EStateM.Result.ok () (log
      { ahead f s with symbols := (ahead f s).symbols.erase endId, blocks := s.blocks.tail } (.dropped endId)) = _
    rw [again]
    rfl

/-- The test as one branch back. -/
theorem repeats_testAtEnd (c : Condition) (top : Address) (safe : ¬ E beginId) (dropped : E endId) :
    Repeats f E s (do
      let _ ← Asm.nextToken
      Asm.branchIf c top pos
      Asm.placeLabel beginId pos
      Asm.dropEnd endId
      Asm.endOfStatement) := by
  have safe : ∀ id ∈ [beginId], ¬ E id := List.forall_mem_singleton.2 safe
  refine .within (.of echoes_nextToken) safe fun _ s₁ still => ?_
  refine .within (.of (echoes_branchIf done c top pos)) safe fun _ s₂ still' => ?_
  refine .within (echoesWith_placeLabel done pos (List.mem_singleton_self _)) safe fun _ s₃ still'' => ?_
  have still := (still.trans still').trans still''
  rw [← still.nextLabel] at nested
  rw [← still.erasable] at sub
  refine (repeats_dropEnd nested (still.blocks.trans inside) high sub dropped).bind fun _ s₄ _ => ?_
  exact .of echoes_endOfStatement

/-- The test as a branch to the end of the loop. -/
theorem repeats_testAhead (c : Condition) :
    Repeats f E s (do
      Asm.branchIf c.invert (← Asm.labelAddress endId) pos
      Asm.placeLabel beginId pos
      return Flow.goOn) := by
  have outer : droppable s.blocks = droppable rest := by rw [inside]; rfl
  have safe : ∀ id ∈ [beginId, repeatId, endId], ¬ s.Erasable id := fun id own =>
    not_erasable_of_top nested own (Nat.le_refl _) outer
  refine Repeats.mono ?_ sub high
  refine .within (echoesWith_labelAddress (by simp)) safe fun target s₁ still => ?_
  refine .within (.of (echoes_branchIf done c.invert target pos)) safe fun _ s₂ still' => ?_
  refine .within (echoesWith_placeLabel done pos (by simp)) safe fun _ s₃ still'' => ?_
  have still := (still.trans still').trans still''
  rw [← still.erasable]
  exact .of (.pure Flow.goOn)

end WhileTest

/-- A test is repeated. It is the one statement that can drop a label, the end of its loop, and the next pass drops it
too. -/
theorem repeats_whileTest (nested : Nested s.blocks s.nextLabel symbols) : Repeats f s.Erasable s (Asm.whileTest pos) := by
  refine .after echoes_condition fun c s₁ still => .get rfl ?_
  have nested := still.nested nested
  split
  · rename_i beginId repeatId endId tested top
    obtain ⟨opened, rest, blocks⟩ := BlockStack.exists_of_top?_eq top
    dsimp only
    split
    · exact .of (.failThen _ _)
    · rename_i untested
      obtain rfl : tested = false := by simpa using untested
      have high {k : SymbolId} (h : s₁.Erasable k) : autoLabelBase ≤ k.toNat := h.high nested
      rw [blocks] at nested
      have ends : droppable s₁.blocks = endId :: droppable rest := by rw [blocks]; rfl
      have dropped : s₁.Erasable endId := .inr (ends ▸ List.mem_cons_self ..)
      have safe : ∀ id ∈ [beginId, repeatId], ¬ s₁.Erasable id := by
        intro id mem
        have own : id ∈ (Block.loop beginId repeatId endId false).labels := List.mem_append_left [endId] mem
        have apart : id ≠ endId :=
          (List.nodup_append.1 (show ([beginId, repeatId] ++ [endId]).Nodup from nested.distinct)).2.2 id mem endId
            (List.mem_singleton_self _)
        refine not_erasable (nested.range id (List.mem_append_left _ own)).2 ?_
        rw [ends, List.mem_cons, not_or]
        exact ⟨apart, nested.not_mem_droppable own⟩
      -- the block counts as tested from here on, but its end may be dropped until it is known where the test stands
      refine .step (fun _ _ set => echo_setTop set) fun _ s₂ set => ?_
      refine .within (.of echoes_endOfStatement) safe fun _ s₃ ended => ?_
      refine .within (.of echoes_budget) safe fun n s₄ asked => ?_
      refine .within (.of (echoes_skipEmptyLines n)) safe fun _ s₅ skipped => ?_
      refine .within (echoesWith_labelAddress (by simp)) safe fun top s₆ known => ?_
      refine .within (.of echoes_peekToken) safe fun token s₇ peeked => .get rfl ?_
      have still := ((((ended.trans asked).trans skipped).trans known).trans peeked)
      obtain ⟨inside, next⟩ := of_setTop blocks set
      have inside := still.blocks.trans inside
      have next := still.nextLabel.trans next
      rw [← next] at nested
      have sub (k : SymbolId) : s₇.Erasable k → s₁.Erasable k := by
        rintro (later | mem)
        · exact .inl (next ▸ later)
        · rw [inside, BlockStack.droppable_cons_of_none rfl] at mem
          exact .inr (ends ▸ List.mem_cons_of_mem _ mem)
      split
      · exact repeats_testAtEnd done nested inside high sub c top (safe beginId (by simp)) dropped
      · exact repeats_testAhead done nested inside high sub c
  · exact .of (.fail _ _)

end

end Assembler

end Asm65
