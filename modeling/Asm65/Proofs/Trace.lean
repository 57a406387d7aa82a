import Asm65.Proofs.Pass

/-!
# What the events of a pass mean

Every event of a pass says something about the state in which it happens, and that stays true to the end of
the pass: bytes and uses are only added, and addresses of names change only if that is noticed.
-/

namespace Asm65.Assembler
set_option autoImplicit false

variable {s t : Assembler}

/-- It is the case if nothing has moved in this pass, which is not the first. -/
def Settled (s : Assembler) (p : Prop) : Prop := 2 ≤ s.pass → s.moved = false → p

/-- The bytes at an offset of a space. -/
def HasBytes (s : Assembler) (space : Space) (offset : Nat) (bs : Array UInt8) : Prop :=
  ∃ before after, (s.segment space).bytes = before ++ bs ++ after ∧ before.size = offset

/-- A name has an entry, with this address unless something moved. -/
def Names (s : Assembler) (name : String) (a : Address) : Prop :=
  ∃ id, s.identifiers.ids[name]? = some id ∧ (s.symbols.get? id).isSome ∧ s.Settled (s.symbols.address id = a)

/-- How a branch was written. A short one has the offset that the log of the last pass gives. One out of reach
jumps, or leaves an error for the end. -/
def BranchWritten (s : Assembler) (index : Nat) (pos : Position) (site target : Address) : Reach → Prop
  | .short k =>
    ∃ space offset op, site = .inSpace space (.ofNat offset) ∧ s.HasBytes space offset #[op, offsetByte k]
      ∧ target.origin = .space space ∧ target.part = .word ∧ inReach k = true
      ∧ k = corrected (logged? s.lastReachLog index pos) site.value target.value 2
  | .far _ =>
    s.provisional ≠ #[] ∨ ∃ space offset bs, site = .inSpace space (.ofNat offset) ∧ s.HasBytes space offset bs
      ∧ (bs = #[Opcode.jump] ∨ ∃ op, bs = #[Opcode.inverted op, 3, Opcode.jump])
  | .unknown => target.isUndefined = true

/-- What an event says of a state of its pass. -/
def Holds (s : Assembler) : Event → Prop
  | .lookup id name value =>
    s.identifiers.ids[name]? = some id ∧ s.Known value ∧ s.Settled (s.symbols.address id = value)
  | .operand site value =>
    value.isConst = true ∨ value.isUndefined = true ∨ site ∈ s.uses ∨ s.diagnostics.isEmpty = false
  | .branch index pos site target reach => s.BranchWritten index pos site target reach
  | .placed name space offset => s.Names name (.inSpace space (.ofNat offset)) ∧ offset ≤ (s.segment space).size
  | .equated name tokens space offset value =>
    s.Names name value ∧ offset ≤ (s.segment space).size ∧ s.Settled (∃ rest,
      Expression.read (⟨tokens, s.valueOf, .inSpace space (.ofNat offset)⟩ : Scope Address) = .ok value rest)
  | .narrow .. | .declared .. | .defined .. | .refused .. | .label .. | .dropped .. => True

theorem HasBytes.mono {space : Space} {offset : Nat} {bs : Array UInt8} (h : s.HasBytes space offset bs)
    (grows : Grows s t) : t.HasBytes space offset bs := by
  obtain ⟨before, after, same, size⟩ := h
  obtain ⟨more, appended⟩ := grows.bytes space
  exact ⟨before, after ++ more, by rw [appended, same, Array.append_assoc], size⟩

/-- The bytes that are written stand where the segment ended. -/
theorem hasBytes_modify (s : Assembler) (bs : Array UInt8) :
    HasBytes { s with segments := s.segments.modify s.current (·.append bs) } s.current (s.segment s.current).size bs :=
  ⟨(s.segment s.current).bytes, #[], by simp [segment], rfl⟩

theorem Grows.size_le (grows : Grows s t) (space : Space) : (s.segment space).size ≤ (t.segment space).size := by
  obtain ⟨more, appended⟩ := grows.bytes space
  simp only [Segment.size, appended, Array.size_append]
  omega

theorem Settled.mono {p q : Prop} (h : s.Settled p) (grows : Grows s t)
    (keep : 2 ≤ s.pass → t.moved = false → p → q) : t.Settled q := by
  intro later still
  have before : 2 ≤ s.pass := grows.pass ▸ later
  exact keep before still (h before (grows.moved_eq_false still))

theorem Names.mono {name : String} {a : Address} (h : s.Names name a) (sound : s.Sound) (grows : Grows s t) :
    t.Names name a := by
  obtain ⟨id, known, entry, settled⟩ := h
  have low := sound.numbered.toNat_lt known
  refine ⟨id, grows.identifiers known, grows.entries low entry, settled.mono grows fun later still same => ?_⟩
  rw [grows.addresses later still low, same]

/-- A name that has no number yet has no value. -/
theorem valueOf_eq_undefined (sound : s.Sound) {name : String} (unknown : s.identifiers.ids[name]? = none) :
    s.valueOf name = .undefined := by
  have none : s.toObject.address? name = none := by
    rw [Object.address?, Option.map_eq_none_iff, List.find?_eq_none]
    rintro ⟨id, sym⟩ mem
    rw [Std.ExtTreeMap.mem_toList_iff_getElem?_eq_some, toObject, SymbolTable.getElem?_named] at mem
    have number := sound.symbols.named mem.1 mem.2
    intro same
    rw [eq_of_beq same, unknown] at number
    cases number
  rw [valueOf, none]
  rfl

/-- While nothing moves, names keep their values, whether they have been seen or not. -/
theorem valueOf_eq_of_grows (before : s.Sound) (after : t.Sound) (grows : Grows s t) (later : 2 ≤ s.pass)
    (still : t.moved = false) : t.valueOf = s.valueOf := by
  funext name
  cases known : s.identifiers.ids[name]? with
  | some id =>
    rw [before.valueOf_eq known, after.valueOf_eq (grows.identifiers known)]
    exact grows.addresses later still (before.numbered.toNat_lt known)
  | none =>
    rw [valueOf_eq_undefined before known]
    cases seen : t.identifiers.ids[name]? with
    | none => exact valueOf_eq_undefined after seen
    | some id =>
      -- the entry under a number given since would belong to another name
      rw [after.valueOf_eq seen, grows.addresses later still (after.numbered.toNat_lt seen)]
      cases entry : s.symbols.get? id with
      | none => simp only [SymbolTable.address, entry]
      | some sym =>
        have owner := before.symbols.named entry (after.numbered.toNat_lt seen)
        rw [after.numbered.unique (grows.identifiers owner) seen, known] at owner
        cases owner

theorem BranchWritten.mono {index : Nat} {pos : Position} {site target : Address} {reach : Reach}
    (h : s.BranchWritten index pos site target reach) (grows : Grows s t) :
    t.BranchWritten index pos site target reach := by
  cases reach with
  | short k =>
    obtain ⟨space, offset, op, hsite, bytes, origin, part, reaches, corrects⟩ := h
    exact ⟨space, offset, op, hsite, bytes.mono grows, origin, part, reaches, grows.lastReachLog ▸ corrects⟩
  | far d =>
    obtain held | ⟨space, offset, bs, hsite, bytes, long⟩ := h
    · obtain ⟨es, appended⟩ := grows.provisional
      refine .inl fun none => held ?_
      rw [appended] at none
      exact (Array.append_eq_empty_iff.1 none).1
    · exact .inr ⟨space, offset, bs, hsite, bytes.mono grows, long⟩
  | unknown => exact h

/-- What an event says stays true. -/
theorem Holds.mono {e : Event} (h : s.Holds e) (before : s.Sound) (after : t.Sound) (grows : Grows s t) :
    t.Holds e := by
  cases e with
  | lookup id name value =>
    obtain ⟨known, reported, settled⟩ := h
    refine ⟨grows.identifiers known, reported.mono grows, settled.mono grows fun later still same => ?_⟩
    rw [grows.addresses later still (before.numbered.toNat_lt known), same]
  | operand site value =>
    obtain const | unknown | used | failed := h
    · exact .inl const
    · exact .inr (.inl unknown)
    · exact .inr (.inr (.inl (grows.uses used)))
    · exact .inr (.inr (.inr (grows.diagnostics failed)))
  | branch index pos site target reach => exact BranchWritten.mono h grows
  | placed name space offset =>
    exact ⟨h.1.mono before grows, Nat.le_trans h.2 (grows.size_le space)⟩
  | equated name tokens space offset value =>
    obtain ⟨names, room, settled⟩ := h
    refine ⟨names.mono before grows, Nat.le_trans room (grows.size_le space), ?_⟩
    refine settled.mono grows fun later still evaluates => ?_
    rw [valueOf_eq_of_grows before after grows later still]
    exact evaluates
  | narrow | declared | defined | refused | label | dropped => trivial

section Estimate

variable {pos : Position} {target : Address} {long index length : Nat}

theorem estimate_eq_short {k : Int} (h : s.estimate pos target 2 long index = (.ok (.short k), length)) :
    target.origin = s.here.origin ∧ target.part = .word ∧ inReach k = true
      ∧ k = corrected (logged? s.lastReachLog index pos) s.here.value target.value 2 := by
  unfold estimate at h
  dsimp only at h
  split at h
  · cases h
  · split at h
    · cases h
    · rename_i inSpace
      split at h <;> cases h
      rename_i reaches
      have same : target.origin = s.here.origin ∧ target.part = .word := by simpa using inSpace
      exact ⟨same.1, same.2, reaches, rfl⟩

theorem estimate_eq_unknown (h : s.estimate pos target 2 long index = (.ok .unknown, length)) :
    target.isUndefined = true := by
  unfold estimate at h
  dsimp only at h
  split at h
  · assumption
  · split at h
    · cases h
    · split at h <;> cases h

end Estimate

/-- A branch is written in a form for what was decided about it, case by case. -/
theorem branchWritten_branched {pos : Position} {target : Address} {r : Reach} {long length : Nat} {p : Array Error}
    {bs : Array UInt8} (decided : s.estimate pos target 2 long s.reachLog.size = (.ok r, length))
    (form : s.BranchForm r p bs) :
    (s.branched pos target r length p bs).BranchWritten s.reachLog.size pos s.here target r := by
  have bytes : (s.branched pos target r length p bs).HasBytes s.current (s.segment s.current).size bs :=
    hasBytes_modify s bs
  cases form with
  | short op k =>
    obtain ⟨origin, part, reaches, corrects⟩ := estimate_eq_short decided
    exact ⟨s.current, _, op, rfl, bytes, origin, part, reaches, corrects⟩
  | @jump r long =>
    cases r with
    | short k => exact absurd rfl (long k)
    | far d => exact .inr ⟨s.current, _, _, rfl, bytes, .inl rfl⟩
    | unknown => exact estimate_eq_unknown decided
  | @around op r long =>
    cases r with
    | short k => exact absurd rfl (long k)
    | far d => exact .inr ⟨s.current, _, _, rfl, bytes, .inr ⟨op, rfl⟩⟩
    | unknown => exact estimate_eq_unknown decided
  | far op d e => exact .inl (by simp [branched])
  | unknown op => exact estimate_eq_unknown decided

theorem names_assign {id : SymbolId} {name : String} {a : Address} (known : s.identifiers.ids[name]? = some id)
    (new : (s.symbols.define id name a s.pass).1 ≠ .duplicate) : (s.assign id name a).Names name a := by
  refine ⟨id, known, ?_, fun _ _ => s.symbols.address_define id name a s.pass new⟩
  exact Option.isSome_iff_exists.2 ⟨_, s.symbols.get?_define_self id name a s.pass new⟩

theorem Names.log {name : String} {a : Address} (h : s.Names name a) (e : Event) : (s.log e).Names name a := h

theorem mem_or_holds {e new : Event} {trace : List Event} (mem : e ∈ new :: trace) (holds : t.Holds new) :
    e ∈ trace ∨ t.Holds e := by
  obtain rfl | old := List.mem_cons.1 mem
  · exact .inr holds
  · exact .inl old

/-- A new event holds when it happens. -/
theorem Action.holds {ids : List SymbolId} (h : Action ids s t) (sound : s.Sound) {e : Event} (mem : e ∈ t.trace) :
    e ∈ s.trace ∨ t.Holds e := by
  have after := sound.act h
  have grows := h.grows
  cases h with
  | load h => rw [load_eq h] at mem; exact .inl mem
  | @lookUp name id pos known =>
    have reported := known_lookUp sound id name pos
    rw [lookUp_eq] at mem reported ⊢
    exact mem_or_holds mem ⟨known, reported, fun _ _ => rfl⟩
  | place known new =>
    have placed := mem_or_holds mem ⟨(names_assign known new).log _, grows.size_le s.current⟩
    exact placed.elim (mem_or_holds · trivial) .inr
  | @equate name id value tokens rest known new drawn evaluates =>
    have equated := mem_or_holds mem
      ⟨(names_assign known new).log _, grows.size_le s.current, fun later still => ⟨rest, by
        rw [valueOf_eq_of_grows sound after grows later still]
        exact evaluates⟩⟩
    exact equated.elim (mem_or_holds · trivial) .inr
  | declareExternal known new => exact (mem_or_holds mem trivial).elim (mem_or_holds · trivial) .inr
  | clash | declarePublic | mark => exact mem_or_holds mem trivial
  | @operand a use d bs aims writes =>
    refine mem_or_holds mem ?_
    obtain used | const | unknown | failed := writes.recorded
    · obtain ⟨v, rfl⟩ := Option.isSome_iff_exists.1 used
      exact .inr (.inr (.inl (Std.ExtTreeMap.mem_insert_self ..)))
    · exact .inl const
    · exact .inr (.inl unknown)
    · exact .inr (.inr (.inr failed))
  | branch aims two decided form => exact mem_or_holds mem (branchWritten_branched decided form)
  | read | intern | report | switch | bytes | refuse => exact .inl mem

theorem Step.holds (h : Step s t) (sound : s.Sound) (before : ∀ e ∈ s.trace, s.Holds e) : ∀ e ∈ t.trace, t.Holds e := by
  intro e mem
  have old (mem : e ∈ s.trace) : t.Holds e := (before e mem).mono sound (sound.step h) h.grows
  cases h with
  | act h => exact (h.holds sound mem).elim old id
  | allot | settle | clash | drop => exact (mem_or_holds mem trivial).elim old id
  | blocks | begin | list | stop => exact old mem

theorem Steps.holds (h : Steps s t) (sound : s.Sound) (before : ∀ e ∈ s.trace, s.Holds e) :
    ∀ e ∈ t.trace, t.Holds e := by
  induction h with
  | refl => exact before
  | tail walked step ih => exact step.holds (sound.steps walked) ih

/-- All events of a final pass hold at its end. -/
theorem FinalPass.holds {b : Assembler} (final : FinalPass b t) : ∀ e ∈ t.trace, t.Holds e := by
  refine final.reaches.steps.holds final.sound fun e mem => ?_
  rw [final.trace] at mem
  cases mem

/-- A final pass writes nothing unknown. -/
theorem FinalPass.isBlind_eq_false {b : Assembler} (final : FinalPass b t) {e : Event} (mem : e ∈ t.trace) :
    e.isBlind = false := by
  cases unknown : e.isBlind with
  | false => rfl
  | true =>
    have tidy := final.reaches.tidy
    unfold Tidy at tidy
    rw [final.blocks] at tidy
    obtain failed | moved | ⟨id, waits, -⟩ := tidy final.later ⟨e, mem, unknown⟩
    · rw [final.clean] at failed; cases failed
    · rw [final.still] at moved; cases moved
    · cases waits

end Asm65.Assembler
