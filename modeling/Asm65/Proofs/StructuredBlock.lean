import Asm65.Proofs.PlainStatement

/-!
# Labels of blocks

A branch to a label of a block is written before the label has its place, with whatever address the pass
before left. If that was none, the label still gets its place before the pass ends, and after the first pass
that moves it. So a pass in which nothing moves has written nothing unknown.
-/

namespace Asm65
set_option autoImplicit false

/-- Whether something was written or branched to that is not known. -/
def Event.isBlind : Event → Bool
  | .operand _ value => value.isUndefined
  | .branch _ _ _ target _ => target.isUndefined
  | _ => false

/-- The labels that branches may aim at before they have their place. The end of a loop is one only after the
test, which may do without it. -/
def Block.awaited : Block → List SymbolId
  | .cond elseId endId => elseId.toList ++ [endId]
  | .loop _ _ endId tested => if tested then [endId] else []

theorem Block.awaited_subset_pending (b : Block) : b.awaited ⊆ b.pending := by
  cases b with
  | cond elseId endId => exact fun _ h => h
  | loop beginId repeatId endId tested => cases tested <;> simp [awaited, pending]

theorem Block.pending_subset_labels (b : Block) : b.pending ⊆ b.labels := by
  cases b with
  | cond elseId endId => exact fun _ h => h
  | loop beginId repeatId endId tested => cases tested <;> simp [pending, labels]

theorem Block.mem_labels_of_top? (b : Block) {id : SymbolId} (h : id ∈ b.top?) : id ∈ b.labels := by
  cases b with
  | cond elseId endId => cases h
  | loop beginId repeatId endId tested =>
    cases h
    simp [labels]

namespace BlockStack

/-- The labels of the open blocks that branches may already aim at. -/
def awaited (blocks : BlockStack) : List SymbolId := blocks.flatMap (·.1.awaited)

theorem exists_of_top?_eq {blocks : BlockStack} {b : Block} (h : top? blocks = some b) :
    ∃ pos rest, blocks = (b, pos) :: rest := by
  cases blocks with
  | nil => cases h
  | cons first rest =>
    cases h
    exact ⟨first.2, rest, rfl⟩

namespace Nested

variable {b : Block} {pos : Position} {rest : BlockStack} {next : Nat} {symbols : SymbolTable}

theorem nil (base : autoLabelBase ≤ next) : Nested [] next symbols :=
  ⟨base, .nil, fun _ h => (by cases h), fun _ h => (by cases h)⟩

theorem push (nested : Nested rest next symbols) (distinct : b.labels.Nodup)
    (apart : ∀ id ∈ b.labels, id ∉ labels rest)
    (range : ∀ id ∈ b.labels, autoLabelBase ≤ id.toNat ∧ id.toNat < next)
    (top : ∀ id ∈ b.top?, (symbols.get? id).isSome) : Nested ((b, pos) :: rest) next symbols := by
  refine ⟨nested.base, ?_, ?_, ?_⟩
  · exact List.nodup_append.2 ⟨distinct, nested.nodup, fun _ h _ h' same => apart _ h (same ▸ h')⟩
  · intro id h
    exact (List.mem_append.1 h).elim (range id) (nested.range id)
  · rintro c (_ | ⟨_, h⟩)
    · exact top
    · exact nested.top c h

theorem tail (nested : Nested ((b, pos) :: rest) next symbols) : Nested rest next symbols :=
  ⟨nested.base, (List.nodup_append.1 nested.nodup).2.1, fun id h => nested.range id (List.mem_append_right _ h),
    fun c h => nested.top c (List.mem_cons_of_mem _ h)⟩

theorem distinct (nested : Nested ((b, pos) :: rest) next symbols) : b.labels.Nodup :=
  (List.nodup_append.1 nested.nodup).1

theorem apart (nested : Nested ((b, pos) :: rest) next symbols) {id : SymbolId} (h : id ∈ b.labels) :
    id ∉ labels rest :=
  fun h' => (List.nodup_append.1 nested.nodup).2.2 id h id h' rfl

theorem high (nested : Nested ((b, pos) :: rest) next symbols) {id : SymbolId} (h : id ∈ b.labels) :
    autoLabelBase ≤ id.toNat :=
  (nested.range id (List.mem_append_left _ h)).1

end Nested

end BlockStack

namespace Assembler

open BlockStack (Nested)

variable {s t : Assembler} {ids more : List SymbolId} {bs : BlockStack}

/-- After the first pass, whatever was written without being known has been reported, has moved a symbol or
waits for one of these labels. -/
def Kept (ids : List SymbolId) (s : Assembler) : Prop :=
  2 ≤ s.pass → (∃ e ∈ s.trace, e.isBlind = true) → s.diagnostics.isEmpty = false ∨ s.moved = true ∨ s.Awaits ids

namespace Kept

theorem mono (kept : s.Kept ids) (sub : ids ⊆ more) : s.Kept more := by
  intro later blind
  obtain failed | moved | ⟨id, mem, waits⟩ := kept later blind
  · exact .inl failed
  · exact .inr (.inl moved)
  · exact .inr (.inr ⟨id, sub mem, waits⟩)

theorem of_failed (failed : s.diagnostics.isEmpty = false) : s.Kept ids := fun _ _ => .inl failed

/-- A step that writes nothing unknown and leaves the labels waiting. -/
theorem step (kept : s.Kept ids) (grows : Grows s t)
    (blind : ∀ e ∈ t.trace, e.isBlind = true →
      e ∈ s.trace ∨ (2 ≤ s.pass → s.diagnostics.isEmpty = false ∨ s.Awaits ids))
    (waits : s.Awaits ids → t.moved = true ∨ t.Awaits ids) : t.Kept ids := by
  rintro later ⟨e, mem, unknown⟩
  have before : 2 ≤ s.pass := grows.pass ▸ later
  have : s.diagnostics.isEmpty = false ∨ s.moved = true ∨ s.Awaits ids := by
    obtain old | new := blind e mem unknown
    · exact kept before ⟨e, old, unknown⟩
    · exact (new before).imp_right .inr
  obtain failed | moved | still := this
  · exact .inl (grows.diagnostics failed)
  · exact .inr (.inl (grows.moved moved))
  · exact .inr (waits still)

/-- An action that aims at no other labels keeps what is unknown accounted for. -/
theorem act (kept : s.Kept more) (sound : s.Sound) (h : Action ids s t) (sub : ids ⊆ more) : t.Kept more := by
  have quiet := h.quiet sound
  refine kept.step h.grows ?_ fun ⟨id, mem, high, absent⟩ => .inr ⟨id, mem, high, (quiet.labels high).trans absent⟩
  intro e mem unknown
  have later {a : Address} (aims : s.Aims ids a) (h : a.isUndefined = true) (later : 2 ≤ s.pass) :
      s.diagnostics.isEmpty = false ∨ s.Awaits more :=
    (aims.reported later h).imp_right fun ⟨id, mem, waits⟩ => ⟨id, sub mem, waits⟩
  cases h with
  | load h => rw [load_eq h] at mem; exact .inl mem
  | lookUp pos known =>
    rw [lookUp_eq] at mem
    exact .inl (Event.mem_of_kind Event.isBlind mem unknown rfl)
  | place known new =>
    have mem := Event.mem_of_kind Event.isBlind mem unknown rfl
    exact .inl (Event.mem_of_kind Event.isBlind mem unknown rfl)
  | equate known new =>
    have mem := Event.mem_of_kind Event.isBlind mem unknown rfl
    exact .inl (Event.mem_of_kind Event.isBlind mem unknown rfl)
  | declareExternal known new =>
    have mem := Event.mem_of_kind Event.isBlind mem unknown rfl
    exact .inl (Event.mem_of_kind Event.isBlind mem unknown rfl)
  | clash | declarePublic | mark => exact .inl (Event.mem_of_kind Event.isBlind mem unknown rfl)
  | operand bs aims writes =>
    obtain rfl | old := List.mem_cons.1 mem
    · exact .inr (later aims unknown)
    · exact .inl old
  | branch aims two decided form =>
    obtain rfl | old := List.mem_cons.1 mem
    · exact .inr (later aims unknown)
    · exact .inl old
  | read | intern | report | switch | bytes | refuse => exact .inl mem

theorem acts (kept : s.Kept more) (sound : s.Sound) (h : Acts ids s t) (sub : ids ⊆ more) : t.Kept more := by
  induction h with
  | refl => exact kept
  | tail walked h ih => exact ih.act (sound.acts walked) h sub

/-- A label that gets its place is waited for no longer: if it had none, that moves it. -/
theorem settle {id : SymbolId} (kept : s.Kept (id :: ids))
    (new : (s.symbols.define id "" s.here s.pass).1 ≠ .duplicate) : (s.assign id "" s.here).Kept ids := by
  rintro later ⟨e, mem, unknown⟩
  have blind : ∃ e ∈ s.trace, e.isBlind = true := ⟨e, Event.mem_of_kind Event.isBlind mem unknown rfl, unknown⟩
  have grows : Grows s (s.assign id "" s.here) := Grows.assign new
  obtain failed | moved | ⟨k, mem, high, absent⟩ := kept later blind
  · exact .inl failed
  · exact .inr (.inl (grows.moved moved))
  · by_cases same : id = k
    · subst same
      cases still : (s.assign id "" s.here).moved with
      | true => exact .inr (.inl rfl)
      | false =>
        -- a definition that moves nothing would have found an entry
        have unchanged := define_eq_unchanged new still
        obtain ⟨sym, found, -⟩ := s.symbols.exists_of_define_eq_unchanged id "" s.here s.pass later unchanged
        rw [absent] at found
        cases found
    · refine .inr (.inr ⟨k, ?_, high, ?_⟩)
      · exact (List.mem_cons.1 mem).resolve_left fun h => same h.symm
      · exact (s.symbols.get?_define_of_ne "" s.here s.pass same).trans absent

end Kept

/-- The open blocks are `bs`, and what is unknown waits for `ids`. -/
structure Within (bs : BlockStack) (ids : List SymbolId) (s : Assembler) : Prop where
  blocks : s.blocks = bs
  kept : s.Kept ids

/-- What is unknown waits for labels of open blocks. -/
def Tidy (s : Assembler) : Prop := s.Kept (BlockStack.awaited s.blocks)

theorem Within.mono (within : s.Within bs ids) (sub : ids ⊆ more) : s.Within bs more :=
  ⟨within.blocks, within.kept.mono sub⟩

theorem Within.nested (within : s.Within bs ids) (sound : s.Sound) : Nested bs s.nextLabel s.symbols :=
  within.blocks ▸ sound.nested

theorem Within.tidy (within : s.Within bs (BlockStack.awaited bs)) : s.Tidy := by
  unfold Tidy
  rw [within.blocks]
  exact within.kept

theorem Tidy.within (tidy : s.Tidy) : s.Within s.blocks (BlockStack.awaited s.blocks) := ⟨rfl, tidy⟩

/-- The innermost block and those around it. -/
theorem Tidy.innermost (tidy : s.Tidy) {b : Block} (top : BlockStack.top? s.blocks = some b) :
    ∃ opened rest, s.Within ((b, opened) :: rest) (BlockStack.awaited ((b, opened) :: rest)) := by
  obtain ⟨opened, rest, blocks⟩ := BlockStack.exists_of_top?_eq top
  exact ⟨opened, rest, blocks ▸ tidy.within⟩

theorem stable_within (sub : ids ⊆ more) : Stable (Acts ids) (Within bs more) :=
  fun _ _ sound acts within => ⟨(acts.quiet sound).blocks.trans within.blocks, within.kept.acts sound acts sub⟩

theorem stable_tidy : Stable (Acts []) Tidy := by
  intro s t sound acts tidy
  have within := stable_within (List.nil_subset _) s t sound acts tidy.within
  rw [← (acts.quiet sound).blocks] at within
  exact within.tidy

/-- What is outside blocks keeps what no action changes. -/
theorem Plain.keeps {α : Type} {x : Asm α} {F : Assembler → Prop} (h : Plain x) (stable : Stable (Acts []) F) :
    Does Steps F x (fun _ => F) :=
  ((h.frame stable).steps.pre fun _ _ hF => ⟨trivial, hF⟩).post fun _ _ hF => hF.2

theorem Plain.within {α : Type} {x : Asm α} (h : Plain x) : Does Steps (Within bs ids) x (fun _ => Within bs ids) :=
  h.keeps (stable_within (List.nil_subset _))

theorem Plain.tidy {α : Type} {x : Asm α} (h : Plain x) : Does Steps Tidy x (fun _ => Tidy) := h.keeps stable_tidy

/-- A label that has its place is at a known address. -/
theorem known_label (sound : s.Sound) {id : SymbolId} (high : autoLabelBase ≤ id.toNat)
    (placed : (s.symbols.get? id).isSome) : s.Known (s.symbols.address id) := by
  obtain ⟨sym, found⟩ := Option.isSome_iff_exists.1 placed
  obtain ⟨space, v, same⟩ := sound.symbols.label found high
  rw [SymbolTable.address_of_get? found, same]
  exact known_inSpace s space v

/-- A label is at an address, or waits for it. -/
theorem aims_label (sound : s.Sound) {id : SymbolId} (high : autoLabelBase ≤ id.toNat) (mem : id ∈ ids) :
    s.Aims ids (s.symbols.address id) := by
  cases found : s.symbols.get? id with
  | none =>
    refine ⟨fun _ _ => .inr ⟨id, mem, high, found⟩, sound.direct id, fun external => ?_⟩
    rw [SymbolTable.address, found] at external
    cases external
  | some sym => exact (known_label sound high (found ▸ rfl)).aims

/-- A branch or jump to a label that may still wait for its place. -/
theorem does_toLabel {go : Address → Asm Unit} {id : SymbolId}
    (hgo : ∀ a, Does (Acts ids) (fun s => s.Aims ids a) (go a) (fun _ _ => True))
    (owned : id ∈ BlockStack.labels bs) (mem : id ∈ ids) :
    Does Steps (Within bs ids) (do go (← Asm.labelAddress id)) (fun _ => Within bs ids) := by
  unfold Asm.labelAddress
  simp only [bind_assoc, pure_bind]
  refine .getThen fun s sound within => ?_
  have high := ((within.nested sound).range id owned).1
  have stable : Stable (Acts ids) (Within bs ids) := stable_within (List.Subset.refl ids)
  have framed := ((hgo (s.symbols.address id)).frame stable).steps
  exact (framed.fromState ⟨aims_label sound high mem, within⟩).post fun _ _ h => h.2

/-- Labels that have been handed out and belong to no open block. -/
structure Fresh (labels : List SymbolId) (s : Assembler) : Prop where
  nodup : labels.Nodup
  apart : ∀ id ∈ labels, id ∉ BlockStack.labels s.blocks
  range : ∀ id ∈ labels, autoLabelBase ≤ id.toNat ∧ id.toNat < s.nextLabel

theorem fresh_nil (s : Assembler) : s.Fresh [] := ⟨.nil, fun _ h => (by cases h), fun _ h => (by cases h)⟩

/-- The next label is a new one. -/
theorem Fresh.allot {labels : List SymbolId} (fresh : s.Fresh labels) (sound : s.Sound) (room : s.nextLabel < 0x10000) :
    (log { s with nextLabel := s.nextLabel + 1 } (.label (.ofNat s.nextLabel))).Fresh
      (labels ++ [.ofNat s.nextLabel]) := by
  have number : (UInt16.ofNat s.nextLabel).toNat = s.nextLabel := UInt16.toNat_ofNat_of_lt' room
  constructor
  · refine List.nodup_append.2 ⟨fresh.nodup, by simp, ?_⟩
    rintro id mem _ (_ | ⟨_, ⟨⟩⟩) rfl
    have := (fresh.range _ mem).2
    omega
  · intro id mem owned
    obtain old | new := List.mem_append.1 mem
    · exact fresh.apart id old owned
    · have := (sound.nested.range id owned).2
      rw [List.mem_singleton.1 new] at this
      omega
  · intro id mem
    show _ ∧ id.toNat < s.nextLabel + 1
    obtain old | new := List.mem_append.1 mem
    · have := fresh.range id old
      omega
    · have := sound.nested.base
      rw [List.mem_singleton.1 new, number]
      omega

/-- A new label gets its place. -/
theorem does_placeFresh {id : SymbolId} (pos : Position) (high : autoLabelBase ≤ id.toNat) (labels : List SymbolId) :
    Does Steps (fun s => s.Fresh labels ∧ Within bs (id :: ids) s) (Asm.placeLabel id pos)
      (fun _ s => s.Fresh labels ∧ (s.symbols.get? id).isSome ∧ Within bs ids s) := by
  refine .getThen fun s _ ⟨fresh, within⟩ => .ofOutcome fun t _ same => ?_
  subst same
  obtain ⟨-, run⟩ | ⟨new, run⟩ := defineId_eq id "" t.here pos t
  · exact .inl ⟨_, _, run, .single (.clash id)⟩
  · refine .inr ⟨(), _, run, .single (.settle high new), ⟨fresh.nodup, fresh.apart, fresh.range⟩, ?_, within.blocks,
      within.kept.settle new⟩
    exact Option.isSome_iff_exists.2 ⟨_, t.symbols.get?_define_self id "" t.here t.pass new⟩

/-- A label gets its place. -/
theorem does_placeLabel {id : SymbolId} (pos : Position) (high : autoLabelBase ≤ id.toNat) :
    Does Steps (Within bs (id :: ids)) (Asm.placeLabel id pos) (fun _ => Within bs ids) :=
  ((does_placeFresh pos high []).pre fun s _ h => ⟨fresh_nil s, h⟩).post fun _ _ h => h.2.2

theorem does_placeLabels (pos : Position) (labels : List SymbolId) (high : ∀ id ∈ labels, autoLabelBase ≤ id.toNat) :
    Does Steps (Within bs (labels ++ ids)) (Asm.placeLabels pos labels) (fun _ => Within bs ids) := by
  induction labels with
  | nil => exact .pure fun _ _ h => h
  | cons id rest ih =>
    refine (does_placeLabel pos (high id (by simp))).bind fun _ => ?_
    exact ih fun k hk => high k (List.mem_cons_of_mem _ hk)

theorem does_newLabel (labels : List SymbolId) :
    Does Steps (fun s => s.Fresh labels ∧ Within bs ids s) Asm.newLabel
      (fun id s => s.Fresh (labels ++ [id]) ∧ Within bs ids s) := by
  refine .ofRun fun s sound ⟨fresh, within⟩ => ?_
  unfold Asm.newLabel
  split
  · rename_i room
    have step : Step s _ := .allot room
    refine .inr ⟨_, _, rfl, .single step, fresh.allot sound room, within.blocks, ?_⟩
    exact within.kept.step step.grows (fun e mem unknown => .inl (Event.mem_of_kind Event.isBlind mem unknown rfl)) .inr
  · exact .inl ⟨_, rfl⟩

/-- Other blocks are open from here on. -/
theorem does_setBlocks {after : BlockStack} {f : Assembler → BlockStack} {P : Assembler → Prop}
    (h : ∀ s, s.Sound → P s → f s = after ∧ s.Kept ids ∧ Nested after s.nextLabel s.symbols) :
    Does Steps P (modify fun s => { s with blocks := f s }) (fun _ => Within after ids) := by
  refine .modify fun s sound hp => ?_
  obtain ⟨same, kept, nested⟩ := h s sound hp
  rw [same]
  have step : Step s { s with blocks := after } := .blocks after nested
  exact ⟨.single step, rfl, kept.step step.grows (fun _ mem _ => .inl mem) .inr⟩

/-- A block with new labels is opened. -/
theorem does_openBlock (b : Block) (pos : Position) :
    Does Steps
      (fun s => s.Fresh b.labels ∧ (∀ id ∈ b.top?, (s.symbols.get? id).isSome) ∧ Within bs (BlockStack.awaited bs) s)
      (Asm.openBlock b pos) (fun _ => Within ((b, pos) :: bs) (BlockStack.awaited ((b, pos) :: bs))) := by
  refine does_setBlocks fun s sound ⟨fresh, top, within⟩ => ⟨by rw [within.blocks], ?_, ?_⟩
  · exact within.kept.mono (List.subset_append_right _ _)
  · exact (within.nested sound).push fresh.nodup (within.blocks ▸ fresh.apart) fresh.range top

/-- The innermost block may be replaced by one that has some of its labels, and new ones. -/
theorem nested_setTop (b after : Block) {opened : Position} {rest : BlockStack} (new old : List SymbolId)
    (labels : after.labels = new ++ old) (sub : old.Sublist b.labels) (top : ∀ id ∈ after.top?, id ∈ b.top?)
    (sound : s.Sound) (fresh : s.Fresh new) (blocks : s.blocks = (b, opened) :: rest) :
    Nested ((after, opened) :: rest) s.nextLabel s.symbols := by
  have nested : Nested ((b, opened) :: rest) s.nextLabel s.symbols := blocks ▸ sound.nested
  have apart := fresh.apart
  rw [blocks] at apart
  refine nested.tail.push ?_ ?_ ?_ fun id h => ?_
  · rw [labels]
    refine List.nodup_append.2 ⟨fresh.nodup, nested.distinct.sublist sub, ?_⟩
    rintro id hnew _ hold rfl
    exact apart id hnew (List.mem_append_left _ (sub.subset hold))
  · intro id h
    obtain hnew | hold := List.mem_append.1 (labels ▸ h)
    · exact fun mem => apart id hnew (List.mem_append_right _ mem)
    · exact nested.apart (sub.subset hold)
  · intro id h
    obtain hnew | hold := List.mem_append.1 (labels ▸ h)
    · exact fresh.range id hnew
    · exact nested.range id (List.mem_append_left _ (sub.subset hold))
  · exact nested.top _ (List.mem_cons_self ..) id (top id h)

theorem does_setTop (b after : Block) {opened : Position} {rest : BlockStack} (new old : List SymbolId)
    (labels : after.labels = new ++ old) (sub : old.Sublist b.labels) (top : ∀ id ∈ after.top?, id ∈ b.top?) :
    Does Steps (fun s => s.Fresh new ∧ Within ((b, opened) :: rest) ids s) (Asm.setTop after)
      (fun _ => Within ((after, opened) :: rest) ids) := by
  refine does_setBlocks fun s sound ⟨fresh, within⟩ => ⟨?_, within.kept, ?_⟩
  · rw [within.blocks]
    rfl
  · exact nested_setTop b after new old labels sub top sound fresh within.blocks

end Assembler

end Asm65
