import Asm65.Proofs.Pass

/-!
# The account of labels

Every label that a pass hands out is in exactly one place: it waits in an open block or with the statement at
work, it has been given its place, it was the end of a loop that does without, or an error lost it. So a label
is never placed twice, and if a pass records no error, none is lost. Each primitive of structured blocks moves
labels from one place to another; each statement is followed through to the end of what it moved.
-/

namespace Asm65
set_option autoImplicit false

namespace Event

/-- The label that was handed out. -/
def handed? : Event → Option SymbolId
  | .label id => some id
  | _ => none

/-- The label of a block that was given its place. -/
def settled? : Event → Option SymbolId
  | .defined id _ => if autoLabelBase ≤ id.toNat then some id else none
  | _ => none

/-- The label of a loop's end that was given up. -/
def dropped? : Event → Option SymbolId
  | .dropped id => some id
  | _ => none

/-- The label of a block that was refused a place. -/
def refused? : Event → Option SymbolId
  | .refused id => if autoLabelBase ≤ id.toNat then some id else none
  | _ => none

/-- Nothing happened to a label of a block. -/
structure SparesLabels (e : Event) : Prop where
  handed : e.handed? = none := by rfl
  settled : e.settled? = none := by rfl
  dropped : e.dropped? = none := by rfl
  refused : e.refused? = none := by rfl

end Event

/-- The labels of the open blocks that still want a place. -/
def BlockStack.pending (blocks : BlockStack) : List SymbolId := blocks.flatMap (·.1.pending)

namespace Assembler

open BlockStack (Nested)

variable {s t u : Assembler} {ids held own lost : List SymbolId} {bs : BlockStack} {since : Nat}

/-- The labels handed out in this pass, latest first. -/
def handed (s : Assembler) : List SymbolId := s.trace.filterMap Event.handed?

/-- The labels of blocks given their place in this pass, once for each time. -/
def settled (s : Assembler) : List SymbolId := s.trace.filterMap Event.settled?

/-- The labels given up in this pass. -/
def dropped (s : Assembler) : List SymbolId := s.trace.filterMap Event.dropped?

/-- The labels of blocks refused a place in this pass. -/
def refused (s : Assembler) : List SymbolId := s.trace.filterMap Event.refused?

theorem mem_handed {id : SymbolId} : id ∈ s.handed ↔ .label id ∈ s.trace := by
  refine List.mem_filterMap.trans ⟨?_, fun mem => ⟨_, mem, rfl⟩⟩
  rintro ⟨e, mem, same⟩
  cases e with
  | label => cases same; exact mem
  | lookup | defined | refused | dropped | operand | narrow | branch | declared | placed | equated => cases same

theorem mem_dropped {id : SymbolId} : id ∈ s.dropped ↔ .dropped id ∈ s.trace := by
  refine List.mem_filterMap.trans ⟨?_, fun mem => ⟨_, mem, rfl⟩⟩
  rintro ⟨e, mem, same⟩
  cases e with
  | dropped => cases same; exact mem
  | lookup | defined | refused | label | operand | narrow | branch | declared | placed | equated => cases same

theorem mem_refused {id : SymbolId} (high : autoLabelBase ≤ id.toNat) (mem : .refused id ∈ s.trace) : id ∈ s.refused :=
  List.mem_filterMap.2 ⟨_, mem, if_pos high⟩

/-! ### What leaves labels alone -/

/-- Blocks and their labels are as they were. -/
structure LeavesLabels (s t : Assembler) : Prop extends Quiet s t where
  pass : t.pass = s.pass
  handed : t.handed = s.handed
  settled : t.settled = s.settled
  dropped : t.dropped = s.dropped
  refused : t.refused = s.refused

namespace LeavesLabels

/-- New events that spare labels. -/
theorem of_events (quiet : Quiet s t) (pass : t.pass = s.pass) (events : List Event)
    (trace : t.trace = events ++ s.trace) (spare : ∀ e ∈ events, e.SparesLabels) : LeavesLabels s t := by
  have none {f : Event → Option SymbolId} (h : ∀ e ∈ events, f e = none) :
      t.trace.filterMap f = s.trace.filterMap f := by
    rw [trace, List.filterMap_append, List.filterMap_eq_nil_iff.2 h, List.nil_append]
  exact ⟨quiet, pass, none fun e mem => (spare e mem).handed, none fun e mem => (spare e mem).settled,
    none fun e mem => (spare e mem).dropped, none fun e mem => (spare e mem).refused⟩

theorem refl (s : Assembler) : LeavesLabels s s := ⟨⟨rfl, rfl, fun _ => rfl⟩, rfl, rfl, rfl, rfl, rfl⟩

theorem trans (h : LeavesLabels s t) (k : LeavesLabels t u) : LeavesLabels s u where
  blocks := k.blocks.trans h.blocks
  nextLabel := k.nextLabel.trans h.nextLabel
  labels high := (k.labels high).trans (h.labels high)
  pass := k.pass.trans h.pass
  handed := k.handed.trans h.handed
  settled := k.settled.trans h.settled
  dropped := k.dropped.trans h.dropped
  refused := k.refused.trans h.refused

end LeavesLabels

/-- An action leaves the labels of blocks alone: what it defines, and what it is refused, has the number of a name. -/
theorem Action.leavesLabels (sound : s.Sound) (h : Action ids s t) : LeavesLabels s t := by
  have quiet := h.quiet sound
  have pass := h.grows.pass
  have named {name : String} {id : SymbolId} (known : s.identifiers.ids[name]? = some id) :
      ¬ autoLabelBase ≤ id.toNat := Nat.not_le.2 (sound.numbered.toNat_lt known)
  have defines {name : String} {id : SymbolId} (known : s.identifiers.ids[name]? = some id) (a : Address) (last : Event)
      (spares : last.SparesLabels) : ∀ e ∈ [last, .defined id a], e.SparesLabels := by
    rintro e (_ | ⟨_, _ | ⟨_, ⟨⟩⟩⟩)
    · exact spares
    · exact { settled := if_neg (named known) }
  cases h with
  | load h => rw [load_eq h] at quiet pass ⊢; exact .of_events quiet pass [] rfl (List.forall_mem_nil _)
  | lookUp h => rw [lookUp_eq] at quiet pass ⊢; exact .of_events quiet pass [_] rfl (List.forall_mem_singleton.2 {})
  | place known => exact .of_events quiet pass [_, _] rfl (defines known _ _ {})
  | equate known => exact .of_events quiet pass [_, _] rfl (defines known _ _ {})
  | declareExternal known => exact .of_events quiet pass [_, _] rfl (defines known _ _ {})
  | clash known =>
    exact .of_events quiet pass [_] rfl (List.forall_mem_singleton.2 { refused := if_neg (named known) })
  | declarePublic | operand | mark | branch =>
    exact .of_events quiet pass [_] rfl (List.forall_mem_singleton.2 {})
  | read | intern | report | switch | bytes | refuse => exact .of_events quiet pass [] rfl (List.forall_mem_nil _)

theorem Acts.leavesLabels (sound : s.Sound) (h : Acts ids s t) : LeavesLabels s t := by
  induction h with
  | refl => exact .refl s
  | tail walked h ih => exact ih.trans (h.leavesLabels (sound.acts walked))

/-! ### The account -/

/-- Of the labels handed out, `held` are with the statement at work and `lost` were lost by errors. -/
structure Ledger (held lost : List SymbolId) (s : Assembler) : Prop where
  balance : s.handed.Perm ((held ++ BlockStack.pending s.blocks) ++ (s.settled ++ (s.dropped ++ lost)))
  nodup : s.handed.Nodup
  range {id : SymbolId} : id ∈ s.handed → autoLabelBase ≤ id.toNat ∧ id.toNat < s.nextLabel
  /-- An entry of this pass is that of a label placed in it. -/
  current {id : SymbolId} {sym : Symbol} : autoLabelBase ≤ id.toNat → s.symbols.get? id = some sym → sym.pass = s.pass →
    id ∈ s.settled
  absent {id : SymbolId} : id ∈ s.dropped → s.symbols.get? id = none
  accepted : s.refused = []

/-- The account of a pass that began with `since` reports: none is lost unless an error was recorded. -/
structure Account (since : Nat) (held : List SymbolId) (s : Assembler) : Prop where
  ledger : ∃ lost, s.Ledger held lost ∧ (lost = [] ∨ since < s.diagnostics.reports)
  since : since ≤ s.diagnostics.reports

/-- There is an account, whatever was lost. -/
def Owes (s : Assembler) : Prop := ∃ lost, s.Ledger [] lost

namespace Ledger

/-- A ledger depends on blocks and their labels alone. -/
theorem of_leavesLabels (ledger : s.Ledger held lost) (leaves : LeavesLabels s t) : t.Ledger held lost where
  balance := by
    rw [leaves.handed, leaves.settled, leaves.dropped, leaves.blocks]
    exact ledger.balance
  nodup := leaves.handed ▸ ledger.nodup
  range := by
    rw [leaves.handed, leaves.nextLabel]
    exact ledger.range
  current high found now := by
    rw [leaves.settled]
    exact ledger.current high ((leaves.labels high).symm.trans found) (now.trans leaves.pass)
  absent {id} mem := by
    rw [leaves.dropped] at mem
    have handed : id ∈ s.handed := ledger.balance.mem_iff.2 (by simp [mem])
    exact (leaves.labels (ledger.range handed).1).trans (ledger.absent mem)
  accepted := leaves.refused.trans ledger.accepted

/-- What a statement holds when it fails is lost. -/
theorem lose (ledger : s.Ledger (held ++ own) lost) : s.Ledger own (held ++ lost) := by
  refine { ledger with balance := ledger.balance.trans ?_ }
  refine List.perm_iff_count.2 fun id => ?_
  simp only [List.count_append]
  omega

theorem perm (ledger : s.Ledger held lost) (same : held.Perm own) : s.Ledger own lost :=
  { ledger with balance := ledger.balance.trans ((same.append_right _).append_right _) }

/-- Labels move between the open blocks and the statement at work. -/
theorem reblock (ledger : s.Ledger held lost)
    (moves : (held ++ BlockStack.pending s.blocks).Perm (own ++ BlockStack.pending bs)) :
    ({ s with blocks := bs } : Assembler).Ledger own lost :=
  { ledger with balance := ledger.balance.trans (moves.append_right _) }

/-- The label that is handed out next. -/
theorem allot (ledger : s.Ledger held lost) (sound : s.Sound) (room : s.nextLabel < 0x10000) :
    (log { s with nextLabel := s.nextLabel + 1 } (.label (.ofNat s.nextLabel))).Ledger
      (held ++ [.ofNat s.nextLabel]) lost := by
  have number : (UInt16.ofNat s.nextLabel).toNat = s.nextLabel := UInt16.toNat_ofNat_of_lt' room
  have base := sound.nested.base
  refine { ledger with balance := ?_, nodup := ?_, range := fun {id} mem => ?_ }
  · show (UInt16.ofNat s.nextLabel :: s.handed).Perm _
    refine (ledger.balance.cons _).trans (List.Perm.symm ?_)
    rw [List.append_assoc, List.append_assoc, List.append_assoc]
    exact List.perm_middle
  · refine List.nodup_cons.2 ⟨fun mem => ?_, ledger.nodup⟩
    have := (ledger.range mem).2
    omega
  · show _ ∧ id.toNat < s.nextLabel + 1
    obtain rfl | old := List.mem_cons.1 (show id ∈ UInt16.ofNat s.nextLabel :: s.handed from mem)
    · omega
    · have := ledger.range old
      omega

section Held

variable {id : SymbolId} (ledger : s.Ledger (id :: held) lost)

include ledger

theorem high : autoLabelBase ≤ id.toNat := (ledger.range (ledger.balance.mem_iff.2 (by simp))).1

/-- A label that is held has been neither placed nor given up. -/
theorem unsettled : id ∉ s.settled ∧ id ∉ s.dropped := by
  have nodup := ledger.balance.nodup_iff.1 ledger.nodup
  rw [List.cons_append, List.cons_append, List.nodup_cons] at nodup
  simp only [List.mem_append, not_or] at nodup
  exact ⟨nodup.1.2.1, nodup.1.2.2.1⟩

/-- So no definition of it is refused. -/
theorem new (a : Address) : (s.symbols.define id "" a s.pass).1 ≠ .duplicate := by
  intro duplicate
  obtain ⟨sym, found, now⟩ := (s.symbols.define_eq_duplicate_iff id "" a s.pass).1 duplicate
  exact ledger.unsettled.1 (ledger.current ledger.high found now)

/-- A label that is held and gets its place is held no longer. -/
theorem settle : (s.assign id "" s.here).Ledger held lost := by
  have high := ledger.high
  have settled : (s.assign id "" s.here).settled = id :: s.settled := by
    show (Event.defined id s.here :: s.trace).filterMap _ = _
    exact List.filterMap_cons_some (if_pos high)
  have new := ledger.new s.here
  refine { ledger with balance := ?_, current := fun {k sym} high found now => ?_, absent := fun {k} mem => ?_ }
  · rw [settled]
    refine ledger.balance.trans (List.Perm.symm ?_)
    exact List.perm_middle
  · rw [settled]
    obtain before | ⟨rfl, -⟩ := s.symbols.of_get?_define id "" s.here s.pass new found
    · exact List.mem_cons_of_mem _ (ledger.current high before now)
    · exact List.mem_cons_self ..
  · have other : id ≠ k := fun same => ledger.unsettled.2 (same ▸ mem)
    exact (s.symbols.get?_define_of_ne "" s.here s.pass other).trans (ledger.absent mem)

/-- Neither is one that is dropped; its entry is gone. -/
theorem drop : (log { s with symbols := s.symbols.erase id } (.dropped id)).Ledger held lost := by
  refine { ledger with balance := ?_, current := fun high found now => ?_, absent := fun {k} mem => ?_ }
  · refine ledger.balance.trans (List.Perm.symm ?_)
    show ((held ++ BlockStack.pending s.blocks) ++ (s.settled ++ (id :: s.dropped ++ lost))).Perm _
    rw [List.cons_append, ← List.append_assoc]
    refine List.perm_middle.trans ?_
    rw [List.append_assoc]
    rfl
  · exact ledger.current high (SymbolTable.of_get?_erase found) now
  · show (s.symbols.erase id).get? k = none
    by_cases same : id = k
    · subst same
      exact s.symbols.get?_erase_self id
    · rw [s.symbols.get?_erase_of_ne same]
      obtain rfl | old := List.mem_cons.1 (show k ∈ id :: s.dropped from mem)
      · exact absurd rfl same
      · exact ledger.absent old

end Held

end Ledger

namespace Account

/-- What changes nothing but the ledger. -/
theorem step (account : s.Account since held) (grows : Grows s t)
    (ledger : ∀ {lost}, s.Ledger held lost → t.Ledger own lost) : t.Account since own := by
  obtain ⟨⟨lost, before, complete⟩, le⟩ := account
  exact ⟨⟨lost, ledger before, complete.imp_right (Nat.lt_of_lt_of_le · grows.reports)⟩, Nat.le_trans le grows.reports⟩

theorem acts (account : s.Account since held) (sound : s.Sound) (h : Acts ids s t) : t.Account since held :=
  account.step h.steps.grows fun ledger => ledger.of_leavesLabels (h.leavesLabels sound)

theorem owes (account : s.Account since held) : s.Owes := by
  obtain ⟨lost, ledger, -⟩ := account.ledger
  rw [← List.append_nil held] at ledger
  exact ⟨_, ledger.lose⟩

/-- An error that is recorded accounts for whatever was lost. -/
theorem record (e : Error) (owes : s.Owes) (le : since ≤ s.diagnostics.reports) :
    (s.record e).Account since [] := by
  obtain ⟨lost, ledger⟩ := owes
  have more : since < (s.record e).diagnostics.reports := by
    show since < (s.diagnostics.record e).reports
    rw [Diagnostics.reports_record]
    omega
  exact ⟨⟨lost, { ledger with }, .inr more⟩, Nat.le_of_lt more⟩

/-- A label that is held gets its place. -/
theorem placeLabel {id : SymbolId} (account : s.Account since (id :: held)) (pos : Position) :
    Asm.placeLabel id pos s = .ok () (s.assign id "" s.here) ∧ Step s (s.assign id "" s.here)
      ∧ (s.assign id "" s.here).Account since held := by
  obtain ⟨lost, ledger, -⟩ := account.ledger
  have new := ledger.new s.here
  obtain ⟨duplicate, -⟩ | ⟨-, run⟩ := defineId_eq id "" s.here pos s
  · exact absurd duplicate new
  · exact ⟨run, .settle ledger.high new, account.step (.assign new) fun ledger => ledger.settle⟩

/-- Labels that are held get their place. -/
theorem placeLabels (pos : Position) (labels : List SymbolId) (account : s.Account since (labels ++ held)) :
    ∃ t, Asm.placeLabels pos labels s = .ok () t ∧ Steps s t ∧ t.blocks = s.blocks ∧ t.Account since held := by
  induction labels generalizing s with
  | nil => exact ⟨s, rfl, .refl, rfl, account⟩
  | cons id rest ih =>
    obtain ⟨run, step, placed⟩ := account.placeLabel pos
    obtain ⟨t, runs, steps, blocks, done⟩ := ih placed
    refine ⟨t, ?_, .head step steps, blocks, done⟩
    show EStateM.bind (Asm.placeLabel id pos) (fun _ => Asm.placeLabels pos rest) s = _
    rw [EStateM.bind, run]
    exact runs

end Account

end Assembler

end Asm65
