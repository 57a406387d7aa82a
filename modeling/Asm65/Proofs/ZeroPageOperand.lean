import Asm65.Proofs.Isolation
import Asm65.Proofs.LoadImage
import Asm65.Proofs.RelocationTable

/-!
# Operands of one byte after linking

An operand in a zero page mode is one byte. A number is checked when it is written, an address in the zero page is
relocated when it is linked, and of both the low byte is what stands there in the end.
-/

namespace Asm65
set_option autoImplicit false

theorem Address.fitsByte_iff {a : Address} : a.fitsByte = true ↔ a.value.toNat < 0x100 ∨ 0xff80 ≤ a.value.toNat := by
  rw [fitsByte, Bool.or_eq_true, decide_eq_true_eq, decide_eq_true_eq, UInt16.le_iff_toNat_le, ge_iff_le,
    UInt16.le_iff_toNat_le]
  exact or_congr_left Nat.lt_succ_iff.symm

def Event.isOperand : Event → Bool
  | .operand .. => true
  | _ => false

/-- The place and the address of an operand that was written as one byte. -/
def Event.narrow? : Event → Option (Address × Address)
  | .narrow _ site a => some (site, a)
  | _ => none

def Event.isNarrow (e : Event) : Bool := e.narrow?.isSome

theorem Event.eq_narrow_of_narrow? {e : Event} {site a : Address} (h : e.narrow? = some (site, a)) :
    ∃ mode, e = .narrow mode site a := by
  cases e with
  | narrow mode => cases h; exact ⟨mode, rfl⟩
  | lookup | defined | refused | label | dropped | operand | branch | declared | placed | equated => cases h

namespace Assembler

variable {s t : Assembler} {ids : List SymbolId}

/-! ### The place of an operand -/

/-- A place of a segment that no use goes over, except that one may start there if the operand is no number. -/
structure OperandAt (s : Assembler) (site a : Address) (space : Space) (offset : Nat) : Prop where
  located : site = .inSpace space (.ofNat offset)
  inside : offset < (s.segment space).size
  free {site' value : Address} (used : s.uses[site']? = some value) (same : site'.space? = some space) :
    site' = site ∧ a.isConst = false ∨ site'.value.toNat + value.footprint ≤ offset ∨ offset < site'.value.toNat

/-- Every operand so far has its place, and what was written as one byte is there. -/
structure Operands (s : Assembler) : Prop where
  at_ {site a : Address} (h : .operand site a ∈ s.trace) : ∃ space offset, s.OperandAt site a space offset
  narrowed {mode : Mode} {site a : Address} (h : .narrow mode site a ∈ s.trace) : s.Narrowed site a

namespace OperandAt

variable {site a : Address} {space : Space} {offset : Nat}

theorem space?_site (h : s.OperandAt site a space offset) : site.space? = some space := by
  rw [h.located]
  rfl

theorem toNat_site (h : s.OperandAt site a space offset) (fits : s.Fits) : site.value.toNat = offset := by
  rw [h.located]
  exact fits.toNat_ofNat space h.inside

theorem keep (h : s.OperandAt site a space offset) (grows : Grows s t) (uses : t.uses = s.uses) :
    t.OperandAt site a space offset :=
  ⟨h.located, Nat.lt_of_lt_of_le h.inside (grows.size_le space), fun used => h.free (uses ▸ used)⟩

end OperandAt

/-- What is written as one byte stays, as long as the use at its place does. -/
theorem Narrowed.mono {site a : Address} (h : s.Narrowed site a) (grows : Grows s t)
    (keep : ∀ {v : Address}, s.uses[site]? = some v → t.uses[site]? = some v) : t.Narrowed site a := by
  refine ⟨grows.mem_trace h.operand, fun number => ?_, fun number known word => ?_⟩
  · obtain ⟨fits, space, offset, located, byte⟩ := h.number number
    refine ⟨fits.imp_right grows.diagnostics, space, offset, located, ?_⟩
    obtain ⟨more, appended⟩ := grows.bytes space
    have inside := (Array.getElem?_eq_some_iff.1 byte).1
    rw [appended, Array.getElem?_append_left inside, byte]
  · exact (h.place number known word).imp (And.imp_right keep) grows.diagnostics

namespace Operands

/-- What records no use. -/
theorem keep (operands : s.Operands) (grows : Grows s t) (uses : t.uses = s.uses)
    (old : ∀ e ∈ t.trace, e.isOperand = true → e ∈ s.trace) (narrow : ∀ e ∈ t.trace, e.isNarrow = true → e ∈ s.trace) :
    t.Operands := by
  refine ⟨fun {site a} mem => ?_, fun {mode site a} mem => ?_⟩
  · obtain ⟨space, offset, placed⟩ := operands.at_ (old _ mem rfl)
    exact ⟨space, offset, placed.keep grows uses⟩
  · exact (operands.narrowed (narrow _ mem rfl)).mono grows fun used => uses ▸ used

/-- What adds an event of another kind. -/
theorem log (operands : s.Operands) (grows : Grows s t) (uses : t.uses = s.uses) {e : Event} (trace : t.trace = e :: s.trace)
    (other : e.isOperand = false) (wide : e.isNarrow = false) : t.Operands := by
  refine operands.keep grows uses (fun e' mem same => ?_) fun e' mem same => ?_
  · exact Event.mem_of_kind Event.isOperand (trace ▸ mem) same other
  · exact Event.mem_of_kind Event.isNarrow (trace ▸ mem) same wide

/-- What adds no event. -/
theorem quiet (operands : s.Operands) (grows : Grows s t) (uses : t.uses = s.uses) (trace : t.trace = s.trace) :
    t.Operands :=
  operands.keep grows uses (fun _ mem _ => trace ▸ mem) fun _ mem _ => trace ▸ mem

theorem assign (operands : s.Operands) {id : SymbolId} {name : String} {a : Address}
    (new : (s.symbols.define id name a s.pass).1 ≠ .duplicate) {e : Event} (other : e.isOperand = false)
    (wide : e.isNarrow = false) : ((s.assign id name a).log e).Operands :=
  (operands.log (.assign new) rfl rfl rfl rfl).log (Grows.refl _).log rfl rfl other wide

/-- Writing an operand. -/
theorem operand (operands : s.Operands) (tabled : s.Tabled) {a : Address} {use : Option Address} {d : Diagnostics}
    {bs : Array UInt8} (aims : s.Aims ids a) (writes : s.Writes a use d bs) (fits : (s.wrote a use d bs).Fits)
    (clean : d.isEmpty = true) : (s.wrote a use d bs).Operands := by
  have grows : Grows s (s.wrote a use d bs) := (Action.operand bs aims writes).grows
  have longer : (s.segment s.current).size < ((s.wrote a use d bs).segment s.current).size := by
    have some : 0 < bs.size := writes.written.resolve_right (by rw [clean]; exact Bool.noConfusion)
    have room := (hasBytes_modify s bs).le_size
    exact Nat.lt_of_lt_of_le (Nat.lt_add_of_pos_right some) room
  have here : s.here.value.toNat = (s.segment s.current).size := fits.toNat_ofNat s.current longer
  -- the uses are the old ones and one for the operand
  have find {site value : Address} (h : (s.wrote a use d bs).uses[site]? = some value) :
      site = s.here ∧ a.isConst = false ∨ s.uses[site]? = some value := by
    cases use with
    | none => exact .inr h
    | some v =>
      have h : (s.uses.insert s.here v)[site]? = some value := h
      by_cases same : s.here = site
      · exact .inl ⟨same.symm, (writes.used rfl).2.1⟩
      · rw [Std.ExtTreeMap.getElem?_insert, if_neg (by simpa using same)] at h
        exact .inr h
  have before {site a' : Address} {space : Space} {offset : Nat} (old : s.OperandAt site a' space offset)
      (same : s.here.space? = some space) : offset < s.here.value.toNat := by
    have inside := old.inside
    rw [here]
    cases same
    exact inside
  refine ⟨fun {site a'} mem => ?_, fun {mode site a'} mem => ?_⟩
  · obtain new | mem := List.mem_cons.1 mem
    · cases new
      refine ⟨s.current, _, rfl, longer, fun {site' value} used same => ?_⟩
      obtain same | old := find used
      · exact .inl same
      · obtain ⟨space, offset, inPlace⟩ := tabled.inPlace old
        have room := inPlace.le_size
        rw [inPlace.space?_site] at same
        cases same
        rw [inPlace.toNat_site (fits.of_grows grows)]
        exact .inr (.inl room)
    · obtain ⟨space, offset, old⟩ := operands.at_ mem
      refine ⟨space, offset, old.located, Nat.lt_of_lt_of_le old.inside (grows.size_le space), fun used same => ?_⟩
      obtain ⟨rfl, -⟩ | used := find used
      · exact .inr (.inr (before old same))
      · exact old.free used same
  · have narrowed := operands.narrowed (Event.mem_of_kind Event.isNarrow mem rfl rfl)
    refine narrowed.mono grows fun {v} used => ?_
    obtain ⟨space, offset, old⟩ := operands.at_ narrowed.operand
    have other : s.here ≠ site := by
      rintro rfl
      have place := before old old.space?_site
      rw [old.toNat_site (fits.of_grows grows)] at place
      exact Nat.lt_irrefl _ place
    cases use with
    | none => exact used
    | some v' =>
      show (s.uses.insert s.here v')[site]? = some v
      rwa [Std.ExtTreeMap.getElem?_insert, if_neg (by simpa using other)]

/-- An action keeps the operands so far in place, and adds the one that it writes or marks. -/
theorem act (operands : s.Operands) (tabled : s.Tabled) (h : Action ids s t) (fits : t.Fits)
    (clean : t.diagnostics.isEmpty = true) : t.Operands := by
  have grows := h.grows
  cases h with
  | load h => exact operands.quiet grows (by rw [load_eq h]) (by rw [load_eq h])
  | lookUp pos known => exact operands.log grows (by rw [lookUp_eq]) (by rw [lookUp_eq]) rfl rfl
  | operand bs aims writes => exact operands.operand tabled aims writes fits clean
  | @mark site a mode narrowed =>
    refine ⟨fun {site a} mem => ?_, fun {mode' site' a'} mem => ?_⟩
    · obtain ⟨space, offset, old⟩ := operands.at_ (Event.mem_of_kind Event.isOperand mem rfl rfl)
      exact ⟨space, offset, old.keep grows rfl⟩
    · obtain new | mem := List.mem_cons.1 mem
      · cases new
        exact narrowed.mono grows id
      · exact (operands.narrowed mem).mono grows id
  | place known new => exact operands.assign new rfl rfl
  | equate known new => exact operands.assign new rfl rfl
  | declareExternal known new => exact operands.assign new rfl rfl
  | clash | declarePublic | branch => exact operands.log grows rfl rfl rfl rfl
  | read | intern | report | switch | bytes | refuse => exact operands.quiet grows rfl rfl

theorem step (operands : s.Operands) (tabled : s.Tabled) (h : Step s t) (fits : t.Fits)
    (clean : t.diagnostics.isEmpty = true) : t.Operands := by
  have grows := h.grows
  cases h with
  | act h => exact operands.act tabled h fits clean
  | allot | settle | clash | drop => exact operands.log grows rfl rfl rfl rfl
  | blocks | begin | list | stop => exact operands.quiet grows rfl rfl

theorem steps (operands : s.Operands) (tabled : s.Tabled) (h : Steps s t) (fits : t.Fits)
    (clean : t.diagnostics.isEmpty = true) : t.Operands := by
  induction h with
  | refl => exact operands
  | tail before h ih =>
    have fewer := fits.of_grows h.grows
    exact (ih fewer (h.grows.isEmpty_eq_true clean)).step (tabled.steps before fewer) h fits clean

end Operands

theorem LastPass.operands {b : Assembler} (last : LastPass b t) (fits : t.Fits) : t.Operands := by
  have none : b.Operands := by
    refine ⟨fun h => ?_, fun h => ?_⟩ <;> (rw [last.trace] at h; cases h)
  exact none.steps (tabled_of_uses_eq last.uses) last.reaches.steps fits last.clean

end Assembler

/-! ### The operands of a module -/

/-- One byte of a module stands for a whole address: a number that fits as a signed or an unsigned byte, in a place that
no use goes over, or an address in the zero page of the module, whose low byte is to be put there. -/
inductive Object.ByteOperand (o : Object) (site a : Address) : Prop where
  | number {space : Space} (const : a.isConst = true) (fits : a.fitsByte = true) (located : site.space? = some space)
    (byte : (o.segment space).bytes[site.value.toNat]? = some a.value.toUInt8)
    (free : ∀ {site' value : Address}, o.uses[site']? = some value → site'.space? = some space →
      ¬ (site'.value.toNat ≤ site.value.toNat ∧ site.value.toNat < site'.value.toNat + value.footprint))
  | place (origin : a.origin = .space .zeroPage) (direct : a.relative = false)
    (used : o.uses[site]? = some { a with part := .low })

/-- The module is what a run of a new assembler gives. -/
def Object.IsAssembled (o : Object) : Prop :=
  ∃ (s t : Assembler) (root : Nat) (asm : Assembly), s.IsNew ∧ s.run root = (.ok asm, t) ∧ asm.object = o

namespace Assembler

variable {s t : Assembler} {root : Nat} {asm : Assembly}

theorem contained_of_run (new : s.IsNew) (run : s.run root = (.ok asm, t))
    (fits : ∀ space, (asm.object.segment space).size ≤ 65536) : asm.object.Contained := by
  obtain ⟨u, tabled, small, object, -⟩ := exists_tabled new run fits
  rw [object]
  exact tabled.contained small

theorem apart_of_run (new : s.IsNew) (run : s.run root = (.ok asm, t))
    (fits : ∀ space, (asm.object.segment space).size ≤ 65536) : asm.object.Apart := by
  obtain ⟨u, tabled, -, object, -⟩ := exists_tabled new run fits
  rw [object]
  exact tabled.apart

/-- Whatever a run writes as one byte and is a whole address is a byte operand of its module. -/
theorem byteOperand_of_run (new : s.IsNew) (run : s.run root = (.ok asm, t))
    (fits : ∀ space, (asm.object.segment space).size ≤ 65536) {mode : Mode} {site a : Address}
    (narrow : .narrow mode site a ∈ t.trace) (word : a.part = .word) : asm.object.ByteOperand site a := by
  obtain ⟨b, u, last, concludes⟩ := exists_lastPass new run
  rw [concludes.object] at fits ⊢
  rw [concludes.trace] at narrow
  have fits : u.Fits := fits
  have narrowed := (last.operands fits).narrowed narrow
  have clean {p : Prop} (failed : u.diagnostics.isEmpty = false) : p := by cases last.clean.symm.trans failed
  cases number : a.isConst with
  | true =>
    obtain ⟨fitting, space, offset, located, byte⟩ := narrowed.number number
    obtain ⟨space', offset', placed⟩ := (last.operands fits).at_ narrowed.operand
    have inside := (Array.getElem?_eq_some_iff.1 byte).1
    have same : space = space' := by
      have same := placed.space?_site
      rw [located] at same
      exact Option.some.inj same
    subst same
    have here : site.value.toNat = offset := by
      rw [located]
      exact fits.toNat_ofNat space inside
    refine .number number (fitting.resolve_right clean) placed.space?_site (here ▸ byte) fun used same => ?_
    rw [placed.toNat_site fits]
    obtain ⟨-, other⟩ | apart := placed.free used same
    · cases number.symm.trans other
    · omega
  | false =>
    have known : a.isUndefined = false := last.isBlind_eq_false narrowed.operand
    obtain ⟨origin, used⟩ := (narrowed.place number known word).resolve_right clean
    obtain ⟨space, offset, inPlace⟩ := (last.tabled fits).inPlace used
    exact .place origin inPlace.drawn.direct used

end Assembler

namespace Linker

variable {l : Linker} {bases : Bases} {ms : List NamedObject} {m : Placed}

/-! ### The layout -/

/-- The zero page segment ends in the zero page, and no segment has more bytes than there are addresses. -/
def InMemory (l : Linker) : Prop :=
  l.bases.zeroPage.toNat + (l.segments.get .zeroPage).size ≤ 0x100 ∧ ∀ s, (l.segments.get s).size ≤ 0x10000

theorem inMemory_of_checkLayout (clean : l.checkLayout.diagnostics.isEmpty = true) : l.InMemory := by
  have laid := laidApart_of_checkLayout clean
  refine ⟨laid.zeroPage, fun s => ?_⟩
  by_cases empty : (l.segments.get s).size = 0
  · omega
  · exact Nat.le_trans (Nat.le_add_left ..) (laid.inMemory empty)

theorem inMemory_finish (clean : l.finish.diagnostics.isEmpty = true) : l.finish.InMemory := by
  unfold finish at clean ⊢
  dsimp only at clean ⊢
  rw [of_checkLayout clean]
  exact inMemory_of_checkLayout clean

/-- The size of every module is bounded by that of the memory, and the zero page of all modules lies in the zero page. -/
theorem Built.room (built : Built bases ms l)
    (room : InMemory { l with
      segments := (l.fixups.toList.filterMap (Fixup.write? l.bases l.globals)).foldl Write.apply l.segments })
    (loaded : m ∈ placed ms) :
    bases.zeroPage.toNat + (m.offsets.get .zeroPage + (m.object.segment .zeroPage).size) ≤ 0x100
      ∧ ∀ s, (m.object.segment s).size ≤ 0x10000 := by
  have size (s : Space) := Write.size_foldl_apply l.segments
    (l.fixups.toList.filterMap (Fixup.write? l.bases l.globals)) s
  obtain ⟨zeroPage, all⟩ := room
  dsimp only at zeroPage all
  rw [size, built.size, built.sameBases] at zeroPage
  refine ⟨Nat.le_trans (Nat.add_le_add_left (end_le_of_mem_placed loaded .zeroPage) _) zeroPage, fun s => ?_⟩
  have bound := all s
  rw [size, built.size] at bound
  exact Nat.le_trans (Nat.le_trans (Nat.le_add_left ..) (end_le_of_mem_placed loaded s)) bound

/-! ### The operands after linking -/

/-- Byte `b` of the linked segments is at `site` of module `m`, and is the low byte of `v`, the final value of `a`. -/
structure LowByte (bases : Bases) (ms : List NamedObject) (segments : PerSpace Segment) (m : Placed) (site a : Address)
    (v : UInt16) (b : UInt8) : Prop where
  final (w : UInt16) : FinalValue bases ms m a w ↔ w = v
  stored : ∃ s, site.space? = some s ∧ (segments.get s).bytes[m.offset s site]? = some b
  low : b.toNat = v.toNat % 256

theorem LowByte.eq_iff {segments : PerSpace Segment} {site a : Address} {v : UInt16} {b : UInt8}
    (h : LowByte bases ms segments m site a v b) : b.toNat = v.toNat ↔ v.toNat < 0x100 := by
  have low := h.low
  omega

theorem finalValue_iff (built : Built bases ms l) {a : Address} {v : UInt16} (h : FinalValue bases ms m a v) (w : UInt16) :
    FinalValue bases ms m a w ↔ w = v :=
  ⟨fun h' => FinalValue.unique built.nodup h' h, fun same => same ▸ h⟩

/-- Which part of an address is wanted does not change its value. -/
theorem FinalValue.ofPart {a : Address} {part : Part} {v : UInt16} (h : FinalValue bases ms m { a with part } v) :
    FinalValue bases ms m a v := by
  cases h with
  | constant origin => exact .constant origin
  | own origin => exact .own origin
  | imported origin named loaded isPublic value => exact .imported origin named loaded isPublic value

section

variable (built : Built bases ms l) (contained : ∀ m ∈ ms, m.object.Contained) (loaded : m ∈ placed ms) {site a : Address}

include built contained loaded

/-- A number of a module whose place no use of the module goes over. -/
theorem lowByte_of_number {s : Space} (const : a.isConst = true) (located : site.space? = some s)
    (byte : (m.object.segment s).bytes[site.value.toNat]? = some a.value.toUInt8)
    (free : ∀ {site' value : Address}, m.object.uses[site']? = some value → site'.space? = some s →
      ¬ (site'.value.toNat ≤ site.value.toNat ∧ site.value.toNat < site'.value.toNat + value.footprint)) :
    LowByte bases ms ((l.fixups.toList.filterMap (Fixup.write? bases l.globals)).foldl Write.apply l.segments) m site a
      a.value a.value.toUInt8 := by
  have origin : a.origin = .absolute := beq_iff_eq.1 const
  have inside := (Array.getElem?_eq_some_iff.1 byte).1
  refine ⟨finalValue_iff built (.constant origin), ⟨s, located, ?_⟩, UInt16.toNat_toUInt8 _⟩
  rw [Placed.offset, built.getElem?_of_free, getElem?_laidOut loaded inside, byte]
  rintro d loaded' site' value used located' ⟨lower, upper⟩
  obtain ⟨s', place, room⟩ := contained d.toNamedObject (mem_of_mem_placed loaded') used
  cases located'.symm.trans place
  unfold Placed.offset at lower upper
  -- the place is in the module's own part, and so is the use
  have size : (m.object.segment s).bytes.size = (m.object.segment s).size := rfl
  have same : d = m := eq_of_mem_place loaded' loaded (s := s) (i := m.offsets.get s + site.value.toNat)
    ⟨by omega, by omega⟩ ⟨by omega, by omega⟩
  subst same
  exact free used located' ⟨by omega, by omega⟩

/-- The low byte of an address of the module. -/
theorem lowByte_of_place (apart : m.object.Apart)
    (fits : ∀ w ∈ l.fixups.toList.filterMap (Fixup.write? bases l.globals), w.Fits l.segments) {s : Space}
    (origin : a.origin = .space s) (direct : a.relative = false)
    (used : m.object.uses[site]? = some { a with part := .low }) :
    ∃ b, LowByte bases ms ((l.fixups.toList.filterMap (Fixup.write? bases l.globals)).foldl Write.apply l.segments) m site a
      (bases.get s + UInt16.ofNat (m.offsets.get s) + a.value) b := by
  have mem := Std.ExtTreeMap.mem_toList_iff_getElem?_eq_some.2 used
  have now : ∃ w, finalWrite? bases l.globals m (site, { a with part := .low }) = some w := by
    obtain now | later := built.uses m loaded _ mem
    · obtain ⟨w, written⟩ := Option.isSome_iff_exists.1 now
      exact ⟨w, by rw [finalWrite?, written]⟩
    · obtain ⟨f, kept⟩ := Option.isSome_iff_exists.1 later
      obtain ⟨id, -, external, -⟩ := of_fixup? kept
      cases origin.symm.trans external
  obtain ⟨w, found⟩ := now
  have fills := fills_finalWrite? built found
  obtain ⟨v, value, shows⟩ := fills.shows
  have final : FinalValue bases ms m a (bases.get s + UInt16.ofNat (m.offsets.get s) + a.value) := .own origin
  obtain rfl : v = bases.get s + UInt16.ofNat (m.offsets.get s) + a.value :=
    FinalValue.unique built.nodup value.ofPart final
  generalize same : w.bytes = bytes at shows
  cases shows with
  | @low b absolute part rest =>
    have there := built.getElem?_of_finalWrite? fits contained apart loaded mem found (j := 0) (by rw [same]; exact Nat.one_pos)
    rw [same, fills.offset] at there
    exact ⟨b, finalValue_iff built final, ⟨w.space, fills.located, there⟩, rest⟩
  | distance relative => cases direct.symm.trans relative
  | word absolute part => cases part
  | high absolute part => cases part

end

/-- Where the zero page of a module is linked, its addresses are bytes. -/
theorem toNat_own_lt {a : Address}
    (room : bases.zeroPage.toNat + (m.offsets.get .zeroPage + (m.object.segment .zeroPage).size) ≤ 0x100)
    (own : a.value.toNat < (m.object.segment .zeroPage).size) :
    (bases.get .zeroPage + UInt16.ofNat (m.offsets.get .zeroPage) + a.value).toNat < 0x100 := by
  have offset : (UInt16.ofNat (m.offsets.get .zeroPage)).toNat = m.offsets.get .zeroPage :=
    UInt16.toNat_ofNat_of_lt' (by show _ < 65536; omega)
  have base : (bases.get .zeroPage).toNat = bases.zeroPage.toNat := rfl
  rw [UInt16.toNat_add, UInt16.toNat_add, offset, base]
  omega

/-- In a link that succeeds, the byte that stands for a whole address, in an instruction of a module from a run, is the
low byte of its final value: of a number that is small or a small negative one, or of an address in the zero page. It
is the whole value exactly if that is below 256, which is so for every address within the zero page of the module. The
modules besides come from runs too, or have their uses within. -/
theorem link_byte_operands {s t : Assembler} {root : Nat} {asm : Assembly} (new : s.IsNew)
    (run : s.run root = (.ok asm, t)) {inputs : List Input} {out : LinkOutput}
    (linked : (load bases inputs).link = .ok out) :
    ∃ pulls, PullsAll (load bases inputs) pulls (load bases inputs).pullAll
      ∧ ((∀ o ∈ inputs.filterMap Input.module? ++ pulls.map Pull.named, o.object.IsAssembled ∨ o.object.Contained) →
        ∀ m ∈ placed (inputs.filterMap Input.module? ++ pulls.map Pull.named), m.object = asm.object →
        ∀ (mode : Mode) (site a : Address), .narrow mode site a ∈ t.trace → a.part = .word →
          ∃ v b, LowByte bases (inputs.filterMap Input.module? ++ pulls.map Pull.named) out.segments m site a v b
            ∧ (b.toNat = v.toNat ↔ v.toNat < 0x100)
            ∧ (a.isConst = true ∧ (v.toNat < 0x100 ∨ 0xff80 ≤ v.toNat)
              ∨ a.origin = .space .zeroPage
                ∧ (a.value.toNat < (asm.object.segment .zeroPage).size → v.toNat < 0x100))) := by
  obtain ⟨finished, segments, -⟩ := of_link linked
  obtain ⟨clean, -, -, fits, result⟩ := of_finish finished
  have inMemory := inMemory_finish finished
  obtain ⟨pulls, all⟩ := (load bases inputs).rounds_pullAll.exists_pulls
  have built := (Built.start bases).add ((adds_foldl_add _ inputs).append all.adds) clean
  rw [List.nil_append] at built
  rw [result] at inMemory
  refine ⟨pulls, all, fun others m loaded same mode site a narrow word => ?_⟩
  have room := fun {d : Placed} (h : d ∈ placed _) => built.room inMemory h
  rw [built.sameBases] at fits result
  rw [segments, result]
  have contained : ∀ o ∈ inputs.filterMap Input.module? ++ pulls.map Pull.named, o.object.Contained := by
    refine forall_mem_placed.1 fun d loaded => ?_
    obtain ⟨s, t, root, asm, new, run, same⟩ | contained := others _ (mem_of_mem_placed loaded)
    · rw [← same]
      exact Assembler.contained_of_run new run (same ▸ (room loaded).2)
    · exact contained
  have small := (room loaded).2
  rw [same] at small
  have operand := Assembler.byteOperand_of_run new run small narrow word
  rw [← same] at operand
  cases operand with
  | number const fitting located byte free =>
    have lowByte := lowByte_of_number built contained loaded const located byte free
    exact ⟨_, _, lowByte, lowByte.eq_iff, .inl ⟨const, Address.fitsByte_iff.1 fitting⟩⟩
  | place origin direct used =>
    have apart : asm.object.Apart := Assembler.apart_of_run new run small
    rw [← same] at apart
    obtain ⟨b, lowByte⟩ := lowByte_of_place built contained loaded apart fits origin direct used
    refine ⟨_, b, lowByte, lowByte.eq_iff, .inr ⟨origin, fun own => ?_⟩⟩
    rw [← same] at own
    exact toNat_own_lt (room loaded).1 own

/-- A link that passes a check. -/
theorem exists_link {p : LinkOutput → Bool} (h : l.link.toOption.any p = true) :
    ∃ out, l.link = .ok out ∧ p out = true := by
  cases linked : l.link with
  | error => rw [linked] at h; cases h
  | ok out => rw [linked] at h; exact ⟨out, rfl, h⟩

/-- Without libraries nothing is pulled. -/
theorem PullsAll.eq_nil {inputs : List Input} {pulls : List Pull} {r : Linker}
    (all : PullsAll (load bases inputs) pulls r) (none : inputs.filterMap Input.shelf? = []) : pulls = [] := by
  refine List.eq_nil_iff_forall_not_mem.2 fun p pulled => ?_
  obtain ⟨s, onShelf, -⟩ := all.mem_objects p pulled
  rw [load, shelves_foldl_add, none] at onShelf
  cases onShelf

/-- The second byte of the zero page of a module, which is linked at $80. -/
theorem link_byte_operands_second :
    ∃ asm t out, (Assembler.ofText " lda p+1\n zpage\np: ds 2\n").run 0 = (.ok asm, t)
      ∧ (load ⟨0x1000, 0x2000, 0x80⟩ [.object "a" asm.object]).link = .ok out
      ∧ (∃ mode, .narrow mode (.inSpace .code 1) (.inSpace .zeroPage 1) ∈ t.trace)
      ∧ ∃ v b, LowByte ⟨0x1000, 0x2000, 0x80⟩ [⟨"a", asm.object⟩] out.segments ⟨⟨"a", asm.object⟩, .const 0⟩
        (.inSpace .code 1) (.inSpace .zeroPage 1) v b ∧ b.toNat = v.toNat := by
  obtain ⟨asm, t, run, checked⟩ := Assembler.exists_run (.ofText " lda p+1\n zpage\np: ds 2\n") 0
    (fun asm t => (load ⟨0x1000, 0x2000, 0x80⟩ [.object "a" asm.object]).link.toOption.any (fun _ => true)
      && decide ((.inSpace .code 1, .inSpace .zeroPage 1) ∈ t.trace.filterMap Event.narrow?)
      && decide (1 < (asm.object.segment .zeroPage).size)) (by decide +kernel)
  rw [Bool.and_eq_true, Bool.and_eq_true, decide_eq_true_eq, decide_eq_true_eq] at checked
  obtain ⟨⟨succeeds, mem⟩, own⟩ := checked
  obtain ⟨out, linked, -⟩ := exists_link succeeds
  obtain ⟨e, mem, found⟩ := List.mem_filterMap.1 mem
  obtain ⟨mode, rfl⟩ := Event.eq_narrow_of_narrow? found
  refine ⟨asm, t, out, run, linked, ⟨mode, mem⟩, ?_⟩
  obtain ⟨pulls, all, operands⟩ := link_byte_operands (Assembler.isNew_ofText _) run linked
  cases all.eq_nil rfl
  obtain ⟨v, b, lowByte, whole, const | ⟨-, small⟩⟩ := operands
    (List.forall_mem_singleton.2 (.inl ⟨_, _, _, asm, Assembler.isNew_ofText _, run, rfl⟩))
    ⟨⟨"a", asm.object⟩, .const 0⟩ (.head _) rfl mode _ _ mem rfl
  · cases const.1
  · exact ⟨v, b, lowByte, whole.2 (small own)⟩

/-- An address behind the zero page of its module ends up at $110, and the link succeeds with $10. -/
theorem link_truncates_address :
    ∃ asm t out mode, (Assembler.ofText " lda p+$90\n zpage\np: ds 1\n").run 0 = (.ok asm, t)
      ∧ (load ⟨0x1000, 0x2000, 0x80⟩ [.object "a" asm.object]).link = .ok out
      ∧ .narrow mode (.inSpace .code 1) (.inSpace .zeroPage 0x90) ∈ t.trace
      ∧ FinalValue ⟨0x1000, 0x2000, 0x80⟩ [⟨"a", asm.object⟩] ⟨⟨"a", asm.object⟩, .const 0⟩ (.inSpace .zeroPage 0x90) 0x110
      ∧ (out.segments.get .code).bytes = #[0xa5, 0x10] := by
  obtain ⟨asm, t, run, checked⟩ := Assembler.exists_run (.ofText " lda p+$90\n zpage\np: ds 1\n") 0
    (fun asm t => (load ⟨0x1000, 0x2000, 0x80⟩ [.object "a" asm.object]).link.toOption.any
        (fun out => (out.segments.get .code).bytes == #[0xa5, 0x10])
      && decide ((.inSpace .code 1, .inSpace .zeroPage 0x90) ∈ t.trace.filterMap Event.narrow?)) (by decide +kernel)
  rw [Bool.and_eq_true, decide_eq_true_eq] at checked
  obtain ⟨out, linked, bytes⟩ := exists_link checked.1
  obtain ⟨e, mem, found⟩ := List.mem_filterMap.1 checked.2
  obtain ⟨mode, rfl⟩ := Event.eq_narrow_of_narrow? found
  exact ⟨asm, t, out, mode, run, linked, mem, finalValue_relocate rfl rfl, beq_iff_eq.1 bytes⟩

end Linker

end Asm65
