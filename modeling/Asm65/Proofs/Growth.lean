import Asm65.Proofs.Action
import Asm65.Proofs.Inclusion

/-!
# What steps keep

Every step keeps the tables sound and lets a pass only grow: bytes, uses, events and errors stay, and a symbol
that gets another address is noticed.
-/

namespace Asm65
set_option autoImplicit false

/-- An event of a kind is among the earlier ones, if the latest is not of that kind. -/
theorem Event.mem_of_kind (kind : Event → Bool) {e new : Event} {trace : List Event} (mem : e ∈ new :: trace)
    (same : kind e = true) (other : kind new = false) : e ∈ trace := by
  refine (List.mem_cons.1 mem).resolve_left ?_
  rintro rfl
  rw [same] at other
  cases other

theorem BlockStack.Nested.mono {blocks : BlockStack} {nextLabel next : Nat} {symbols after : SymbolTable}
    (nested : Nested blocks nextLabel symbols) (more : nextLabel ≤ next)
    (keep : ∀ b ∈ blocks, ∀ id ∈ b.1.top?, (symbols.get? id).isSome → (after.get? id).isSome) :
    Nested blocks next after where
  base := Nat.le_trans nested.base more
  nodup := nested.nodup
  range id mem := ⟨(nested.range id mem).1, Nat.lt_of_lt_of_le (nested.range id mem).2 more⟩
  top b hb id hid := keep b hb id hid (nested.top b hb id hid)

namespace Assembler

open BlockStack (Nested)

/-- Names, symbols and open blocks fit together. -/
structure Sound (s : Assembler) : Prop where
  start : ∃ space v, s.start = .inSpace space v
  numbered : s.identifiers.Numbered
  symbols : s.symbols.Matches s.identifiers
  nested : Nested s.blocks s.nextLabel s.symbols

variable {s t u : Assembler} {ids : List SymbolId}

@[simp] theorem isEmpty_diagnostics_record (s : Assembler) (e : Error) : (s.record e).diagnostics.isEmpty = false :=
  Diagnostics.isEmpty_record _ _

theorem exists_here (s : Assembler) : ∃ space v, s.here = .inSpace space v := ⟨_, _, rfl⟩

theorem load_eq {path : Path} {id : Nat} (h : s.load path = .ok (id, t)) :
    t = { s with files := t.files, notes := t.notes } := by
  unfold load at h
  split at h
  · dsimp only at h
    split at h <;> cases h <;> rfl
  · cases h

theorem load_files {path : Path} {id : Nat} (h : s.load path = .ok (id, t)) :
    s.files.load s.disk path = .ok (id, t.files) := by
  unfold load at h
  split at h
  · rename_i found
    rw [found]
    dsimp only at h
    split at h <;> cases h <;> rfl
  · cases h

theorem lookUp_eq (s : Assembler) (id : SymbolId) (name : String) (pos : Position) :
    s.lookUp id name pos =
      { s with
        trace := .lookup id name (s.symbols.address id) :: s.trace
        diagnostics := (s.lookUp id name pos).diagnostics } := by
  unfold lookUp
  dsimp only
  split <;> rfl

namespace Sound

/-- Giving a symbol an address keeps the tables sound. -/
theorem assign (sound : s.Sound) {id : SymbolId} {name : String} {a : Address}
    (known : id.toNat < autoLabelBase → s.identifiers.ids[name]? = some id)
    (placed : autoLabelBase ≤ id.toNat → ∃ space v, a = .inSpace space v) (direct : a.relative = false)
    (new : (s.symbols.define id name a s.pass).1 ≠ .duplicate) : (s.assign id name a).Sound :=
  { sound with
    symbols := sound.symbols.define known placed direct new
    nested := sound.nested.mono (Nat.le_refl _) fun _ _ _ _ h => s.symbols.isSome_get?_define _ _ _ _ h }

/-- Actions keep names, symbols and open blocks fitting together. -/
theorem act (sound : s.Sound) (h : Action ids s t) : t.Sound := by
  have low {name : String} {id : SymbolId} (known : s.identifiers.ids[name]? = some id) : id.toNat < autoLabelBase :=
    sound.numbered.toNat_lt known
  have named {name : String} {id : SymbolId} {a : Address} (known : s.identifiers.ids[name]? = some id)
      (direct : a.relative = false) (new : (s.symbols.define id name a s.pass).1 ≠ .duplicate) :
      (s.assign id name a).Sound :=
    sound.assign (fun _ => known) (fun high => absurd (low known) (Nat.not_lt.2 high)) direct new
  cases h with
  | load h => rw [load_eq h]; exact { sound with }
  | intern h =>
    exact { sound with
      numbered := sound.numbered.intern h
      symbols := sound.symbols.mono fun found => IdentifierTable.getElem?_intern_of_some h found }
  | lookUp pos known => rw [lookUp_eq]; exact { sound with }
  | place known new => exact { named known rfl new with }
  | equate known new drawn evaluates => exact { named known drawn.direct new with }
  | declareExternal known new => exact { named known rfl new with }
  | declarePublic known =>
    exact { sound with
      symbols := sound.symbols.declarePublic (low known) known
      nested := sound.nested.mono (Nat.le_refl _) fun _ _ _ _ h => s.symbols.isSome_get?_declarePublic _ _ h }
  | read | report | clash | switch | bytes | operand | mark | branch | refuse => exact { sound with }

/-- So do the steps of structured blocks. A label that is dropped is the top of no open loop. -/
theorem step (sound : s.Sound) (h : Step s t) : t.Sound := by
  cases h with
  | act h => exact sound.act h
  | allot => exact { sound with nested := sound.nested.mono (Nat.le_succ _) fun _ _ _ _ h => h }
  | settle auto new =>
    exact sound.assign (fun low => absurd low (Nat.not_lt.2 auto)) (fun _ => exists_here s) rfl new
  | drop auto free =>
    refine { sound with
      symbols := sound.symbols.erase
      nested := sound.nested.mono (Nat.le_refl _) ?_ }
    intro b hb id hid h
    refine (s.symbols.get?_erase_of_ne ?_).symm ▸ h
    rintro rfl
    exact free b hb hid
  | blocks bs nested => exact { sound with nested }
  | begin => exact { sound with start := exists_here s }
  | clash | list | stop => exact { sound with }

theorem acts (sound : s.Sound) (h : Acts ids s t) : t.Sound := by
  induction h with
  | refl => exact sound
  | tail _ h ih => exact ih.act h

theorem steps (sound : s.Sound) (h : Steps s t) : t.Sound := by
  induction h with
  | refl => exact sound
  | tail _ h ih => exact ih.step h

end Sound

/-! ### Dates -/

theorem Action.dated (h : Action ids s t) (dated : s.symbols.Dated s.pass) : t.symbols.Dated t.pass := by
  cases h with
  | load h => rw [load_eq h]; exact dated
  | lookUp => rw [lookUp_eq]; exact dated
  | place known new => exact dated.define new
  | equate known new => exact dated.define new
  | declareExternal known new => exact dated.define new
  | declarePublic => exact dated.declarePublic _ _
  | read | intern | report | clash | switch | bytes | operand | mark | branch | refuse => exact dated

theorem Step.dated (h : Step s t) (dated : s.symbols.Dated s.pass) : t.symbols.Dated t.pass := by
  cases h with
  | act h => exact h.dated dated
  | settle auto new => exact dated.define new
  | drop => exact dated.erase _
  | allot | clash | blocks | begin | list | stop => exact dated

/-- A pass makes no entry that is later than itself. -/
theorem Steps.dated (h : Steps s t) (dated : s.symbols.Dated s.pass) : t.symbols.Dated t.pass := by
  induction h with
  | refl => exact dated
  | tail _ step ih => exact step.dated ih

/-! ### Growth -/

/-- What comes after `s` in a pass. -/
structure Grows (s t : Assembler) : Prop where
  pass : t.pass = s.pass
  options : t.options = s.options
  lastReachLog : t.lastReachLog = s.lastReachLog
  diagnostics : s.diagnostics.isEmpty = false → t.diagnostics.isEmpty = false
  reports : s.diagnostics.reports ≤ t.diagnostics.reports
  provisional : ∃ es, t.provisional = s.provisional ++ es
  moved : s.moved = true → t.moved = true
  fatal : t.fatal = true → s.fatal = true ∨ t.diagnostics.isEmpty = false
  stopped : s.fatal = true → t.fatal = true
  identifiers {name : String} {id : SymbolId} : s.identifiers.ids[name]? = some id → t.identifiers.ids[name]? = some id
  bytes (space : Space) : ∃ bs, (t.segment space).bytes = (s.segment space).bytes ++ bs
  uses {site : Address} : site ∈ s.uses → site ∈ t.uses
  trace : s.trace <:+ t.trace
  files : s.files.Within t.files
  entries {id : SymbolId} : id.toNat < autoLabelBase → (s.symbols.get? id).isSome → (t.symbols.get? id).isSome
  /-- After the first pass, an address of a name that changes is noticed. -/
  addresses {id : SymbolId} : 2 ≤ s.pass → t.moved = false → id.toNat < autoLabelBase →
    t.symbols.address id = s.symbols.address id

theorem Grows.mem_trace {e : Event} (h : Grows s t) (mem : e ∈ s.trace) : e ∈ t.trace := h.trace.subset mem

namespace Grows

/-- A state comes after itself. -/
theorem refl (s : Assembler) : Grows s s where
  pass := rfl
  options := rfl
  lastReachLog := rfl
  diagnostics := id
  reports := Nat.le_refl _
  provisional := ⟨#[], by simp⟩
  moved := id
  fatal := .inl
  stopped := id
  identifiers := id
  bytes space := ⟨#[], by simp⟩
  uses := id
  trace := List.suffix_refl _
  files := .refl _
  entries _ := id
  addresses _ _ _ := rfl

theorem moved_eq_false (h : Grows s t) (still : t.moved = false) : s.moved = false := by
  cases hs : s.moved with
  | false => rfl
  | true => rw [h.moved hs] at still; cases still

theorem isEmpty_eq_true (h : Grows s t) (none : t.diagnostics.isEmpty = true) : s.diagnostics.isEmpty = true := by
  cases hs : s.diagnostics.isEmpty with
  | true => rfl
  | false => rw [h.diagnostics hs] at none; cases none

/-- What comes after a later state comes after the earlier one. -/
theorem trans (h : Grows s t) (k : Grows t u) : Grows s u where
  pass := k.pass.trans h.pass
  options := k.options.trans h.options
  lastReachLog := k.lastReachLog.trans h.lastReachLog
  diagnostics := k.diagnostics ∘ h.diagnostics
  reports := Nat.le_trans h.reports k.reports
  provisional := by
    obtain ⟨es, hes⟩ := h.provisional
    obtain ⟨es', hes'⟩ := k.provisional
    exact ⟨es ++ es', by rw [hes', hes, Array.append_assoc]⟩
  moved := k.moved ∘ h.moved
  fatal stopped := (k.fatal stopped).elim (fun earlier => (h.fatal earlier).imp_right k.diagnostics) .inr
  stopped := k.stopped ∘ h.stopped
  identifiers := k.identifiers ∘ h.identifiers
  bytes space := by
    obtain ⟨bs, hbs⟩ := h.bytes space
    obtain ⟨bs', hbs'⟩ := k.bytes space
    exact ⟨bs ++ bs', by rw [hbs', hbs, Array.append_assoc]⟩
  uses := k.uses ∘ h.uses
  trace := h.trace.trans k.trace
  files := h.files.trans k.files
  entries low := k.entries low ∘ h.entries low
  addresses later still low :=
    (k.addresses (h.pass ▸ later) still low).trans (h.addresses later (k.moved_eq_false still) low)

end Grows

/-- Appending to a segment. -/
theorem bytes_modify (s : Assembler) (bs : Array UInt8) (space : Space) :
    ∃ more, ((s.segments.modify s.current (·.append bs)).get space).bytes = (s.segments.get space).bytes ++ more := by
  by_cases h : s.current = space
  · subst h
    exact ⟨bs, by simp⟩
  · exact ⟨#[], by simp [PerSpace.get_modify_of_ne _ _ h]⟩

/-- A definition after which nothing has moved. -/
theorem define_eq_unchanged {id : SymbolId} {name : String} {a : Address}
    (new : (s.symbols.define id name a s.pass).1 ≠ .duplicate) (still : (s.assign id name a).moved = false) :
    (s.symbols.define id name a s.pass).1 = .unchanged := by
  have : (s.moved || (s.symbols.define id name a s.pass).1 == .moved) = false := still
  cases h : (s.symbols.define id name a s.pass).1 <;> simp_all

/-- After the first pass, an address that is given to a symbol and differs from the one it had is noticed. -/
theorem address_assign {id : SymbolId} {name : String} {a : Address} (later : 2 ≤ s.pass)
    (new : (s.symbols.define id name a s.pass).1 ≠ .duplicate) (still : (s.assign id name a).moved = false)
    (other : SymbolId) : (s.assign id name a).symbols.address other = s.symbols.address other := by
  have unchanged := define_eq_unchanged new still
  obtain ⟨sym, found, same⟩ := s.symbols.exists_of_define_eq_unchanged id name a s.pass later unchanged
  by_cases h : id = other
  · subst h
    rw [SymbolTable.address_of_get? found, same]
    exact s.symbols.address_define id name a s.pass new
  · exact SymbolTable.address_congr (s.symbols.get?_define_of_ne name a s.pass h)

theorem Grows.assign {id : SymbolId} {name : String} {a : Address}
    (new : (s.symbols.define id name a s.pass).1 ≠ .duplicate) : Grows s (s.assign id name a) :=
  { Grows.refl s with
    moved := fun h => by
      show (s.moved || _) = true
      rw [h, Bool.true_or]
    trace := List.suffix_cons _ _
    entries := fun _ h => s.symbols.isSome_get?_define _ _ _ _ h
    addresses := fun later still _ => address_assign later new still _ }

theorem Grows.log {e : Event} (h : Grows s t) : Grows s (t.log e) :=
  { h with trace := h.trace.trans (List.suffix_cons _ _) }

/-- An action leads on in the pass: what is there stays, and more may be added. -/
theorem Action.grows (h : Action ids s t) : Grows s t := by
  cases h with
  | load h =>
    obtain ⟨within, -⟩ := SourceTable.of_load (load_files h)
    rw [load_eq h]
    exact { Grows.refl s with files := within }
  | intern h => exact { Grows.refl s with identifiers := IdentifierTable.getElem?_intern_of_some h }
  | lookUp pos known =>
    rw [lookUp_eq]
    refine { Grows.refl s with trace := List.suffix_cons _ _, fatal := .inl, diagnostics := ?_, reports := ?_ }
    · intro failed
      show (s.lookUp _ _ pos).diagnostics.isEmpty = false
      unfold Assembler.lookUp
      dsimp only
      split
      · exact Diagnostics.isEmpty_record _ _
      · exact failed
    · show _ ≤ (s.lookUp _ _ pos).diagnostics.reports
      unfold Assembler.lookUp
      dsimp only
      split
      · exact Diagnostics.reports_le_record _ _
      · exact Nat.le_refl _
  | report e =>
    exact { Grows.refl s with
      fatal := .inl
      diagnostics := fun _ => Diagnostics.isEmpty_record _ _
      reports := Diagnostics.reports_le_record _ _ }
  | place known new => exact (Grows.assign new).log
  | equate known new => exact (Grows.assign new).log
  | declareExternal known new => exact (Grows.assign new).log
  | declarePublic known =>
    exact { Grows.refl s with
      trace := List.suffix_cons _ _
      entries := fun _ h => s.symbols.isSome_get?_declarePublic _ _ h
      addresses := fun _ _ _ => s.symbols.address_declarePublic _ _ _ }
  | bytes bs => exact { Grows.refl s with bytes := bytes_modify s bs }
  | @operand a use d bs aims writes =>
    refine { Grows.refl s with
      trace := List.suffix_cons _ _
      bytes := bytes_modify s bs
      fatal := .inl
      diagnostics := fun failed => ?_
      reports := ?_
      uses := fun {site} h => ?_ }
    · show d.isEmpty = false
      obtain rfl | ⟨e, rfl⟩ := writes.reported
      · exact failed
      · exact Diagnostics.isEmpty_record _ _
    · show _ ≤ d.reports
      obtain rfl | ⟨e, rfl⟩ := writes.reported
      · exact Nat.le_refl _
      · exact Diagnostics.reports_le_record _ _
    · cases use with
      | none => exact h
      | some v => exact Std.ExtTreeMap.mem_insert.2 (.inr h)
  | clash | mark => exact (Grows.refl s).log
  | @branch pos target r long length p bs aims two decided form =>
    refine { Grows.refl s with
      trace := List.suffix_cons _ _
      bytes := bytes_modify s bs
      provisional := ?_ }
    cases form with
    | far op d e => exact ⟨#[e], by simp [branched]⟩
    | short | jump | around | unknown => exact ⟨#[], by simp [branched]⟩
  | read | switch | refuse => exact { Grows.refl s with }

/-- So does a step of structured blocks. The one entry that is taken away is that of a label without a name. -/
theorem Step.grows (h : Step s t) : Grows s t := by
  cases h with
  | act h => exact h.grows
  | allot => exact { Grows.refl s with trace := List.suffix_cons _ _ }
  | settle auto new => exact Grows.assign new
  | @drop id auto free =>
    have other {k : SymbolId} (low : k.toNat < autoLabelBase) : (s.symbols.erase id).get? k = s.symbols.get? k := by
      apply s.symbols.get?_erase_of_ne
      rintro rfl
      omega
    exact { Grows.refl s with
      trace := List.suffix_cons _ _
      entries := fun low h => (other low).symm ▸ h
      addresses := fun _ _ low => SymbolTable.address_congr (other low) }
  | clash => exact (Grows.refl s).log
  | stop failed => exact { Grows.refl s with fatal := fun _ => .inr failed, stopped := fun _ => rfl }
  | blocks | begin | list => exact { Grows.refl s with }

theorem Steps.grows (h : Steps s t) : Grows s t := by
  induction h with
  | refl => exact .refl s
  | tail _ h ih => exact ih.trans h.grows

/-- Actions outside blocks leave the open blocks and the entries of their labels. -/
structure Quiet (s t : Assembler) : Prop where
  blocks : t.blocks = s.blocks
  nextLabel : t.nextLabel = s.nextLabel
  labels {id : SymbolId} : autoLabelBase ≤ id.toNat → t.symbols.get? id = s.symbols.get? id

theorem Action.quiet (sound : s.Sound) (h : Action ids s t) : Quiet s t := by
  have other {name : String} {id k : SymbolId} (known : s.identifiers.ids[name]? = some id)
      (high : autoLabelBase ≤ k.toNat) : id ≠ k := by
    rintro rfl
    exact absurd (sound.numbered.toNat_lt known) (Nat.not_lt.2 high)
  cases h with
  | load h => rw [load_eq h]; exact ⟨rfl, rfl, fun _ => rfl⟩
  | lookUp pos known => rw [lookUp_eq]; exact ⟨rfl, rfl, fun _ => rfl⟩
  | place known new => exact ⟨rfl, rfl, fun high => s.symbols.get?_define_of_ne _ _ _ (other known high)⟩
  | equate known new => exact ⟨rfl, rfl, fun high => s.symbols.get?_define_of_ne _ _ _ (other known high)⟩
  | declareExternal known new => exact ⟨rfl, rfl, fun high => s.symbols.get?_define_of_ne _ _ _ (other known high)⟩
  | declarePublic known => exact ⟨rfl, rfl, fun high => s.symbols.get?_declarePublic_of_ne _ _ (other known high)⟩
  | read | intern | report | clash | switch | bytes | operand | mark | branch | refuse => exact ⟨rfl, rfl, fun _ => rfl⟩

theorem Acts.quiet (sound : s.Sound) (h : Acts ids s t) : Quiet s t := by
  induction h with
  | refl => exact ⟨rfl, rfl, fun _ => rfl⟩
  | tail h step ih =>
    have next := step.quiet (sound.acts h)
    exact ⟨next.blocks.trans ih.blocks, next.nextLabel.trans ih.nextLabel,
      fun high => (next.labels high).trans (ih.labels high)⟩

end Assembler

end Asm65
