import Asm65.Proofs.Evaluation

/-!
# Operands and branches as actions

Writing an operand is one action, whatever its form; so is deciding about a branch and writing its opcode. The
address that a long branch jumps to is an operand of its own.
-/

namespace Asm65
set_option autoImplicit false

theorem Segment.push_eq_append (seg : Segment) (b : UInt8) : seg.push b = seg.append #[b] := by
  simp only [push, append, Array.push_eq_append]

theorem Segment.append_append (seg : Segment) (bs cs : Array UInt8) :
    (seg.append bs).append cs = seg.append (bs ++ cs) := by
  simp only [append, Array.append_assoc]

theorem PerSpace.modify_modify {α : Type} (p : PerSpace α) (s : Space) (f g : α → α) :
    (p.modify s f).modify s g = p.modify s (g ∘ f) := by
  cases s <;> rfl

namespace Assembler

variable {s t : Assembler} {ids : List SymbolId}

theorem emit_eq_emitAll (s : Assembler) (b : UInt8) : s.emit b = s.emitAll #[b] := by
  simp only [emit, emitAll, Segment.push_eq_append]

theorem emitAll_emitAll (s : Assembler) (bs cs : Array UInt8) : (s.emitAll bs).emitAll cs = s.emitAll (bs ++ cs) := by
  simp only [emitAll, PerSpace.modify_modify, Function.comp_def, Segment.append_append]

/-- A number or an unknown operand leaves no use. -/
theorem writes_none {a : Address} {d : Diagnostics} {bs : Array UInt8}
    (reported : d = s.diagnostics ∨ ∃ e, d = s.diagnostics.record e)
    (written : 0 < bs.size ∨ d.isEmpty = false)
    (recorded : a.isConst = true ∨ a.isUndefined = true ∨ d.isEmpty = false) : s.Writes a none d bs :=
  ⟨reported, written, .inr recorded, fun h => (by cases h)⟩

/-- An operand that only linking decides leaves a use of it or of a byte of it. -/
theorem writes_some {a : Address} (part : Part) {bs : Array UInt8} (more : Array UInt8) (number : a.origin ≠ .absolute)
    (unknown : a.origin ≠ .undefined) (image : bs = ({ a with part } : Address).image ++ more) :
    s.Writes a (some { a with part }) s.diagnostics bs := by
  refine ⟨.inl rfl, .inl ?_, .inl rfl, fun h => ?_⟩
  · rw [image, Array.size_append, Address.size_image]
    exact Nat.lt_of_lt_of_le (Address.footprint_pos _) (Nat.le_add_right ..)
  cases h
  exact ⟨⟨part, rfl⟩, by simpa [Address.isConst] using number, by simpa [Address.isUndefined] using unknown, more, image⟩

/-- A byte of an address stands for it alone. -/
theorem image_of_ne_word {a : Address} (byte : a.part ≠ .word) : a.image = #[(a.part.apply a.value).toUInt8] := by
  simp [Address.image, Address.footprint, byte]

/-- Writing a one-byte operand. -/
theorem emitByteOperand_eq (s : Assembler) (pos : Position) (a : Address) :
    ∃ use d bs, s.emitByteOperand pos a = s.wrote a use d bs ∧ s.Writes a use d bs := by
  unfold emitByteOperand
  dsimp only
  split
  · rename_i absolute
    have number : a.isConst = true := by simp [Address.isConst, absolute]
    split
    · exact ⟨none, _, _, emit_eq_emitAll _ _, writes_none (.inl rfl) (.inl Nat.one_pos) (.inl number)⟩
    · exact ⟨none, _, _, emit_eq_emitAll _ _, writes_none (.inr ⟨_, rfl⟩) (.inl Nat.one_pos) (.inl number)⟩
  · rename_i unknown
    refine ⟨none, _, _, emit_eq_emitAll _ _, writes_none (.inl rfl) (.inl Nat.one_pos) (.inr (.inl ?_))⟩
    simp [Address.isUndefined, unknown]
  · rename_i number unknown
    split
    · split
      · refine ⟨_, _, _, emit_eq_emitAll _ _, writes_some .low #[] number unknown ?_⟩
        rw [image_of_ne_word (by simp), Array.append_empty]
        exact congrArg (#[·]) (Address.toUInt8_low a.value).symm
      · have failed := Diagnostics.isEmpty_record s.diagnostics (.at_ (.wordAsByte a) pos)
        exact ⟨none, _, _, emit_eq_emitAll _ _, writes_none (.inr ⟨_, rfl⟩) (.inl Nat.one_pos) (.inr (.inr failed))⟩
    · rename_i byte
      refine ⟨_, _, _, emit_eq_emitAll _ _, writes_some a.part #[] number unknown ?_⟩
      rw [image_of_ne_word byte, Array.append_empty]

/-- Writing a word. -/
theorem emitWord_eq (s : Assembler) (a : Address) :
    ∃ use d bs, s.emitWord a = s.wrote a use d bs ∧ s.Writes a use d bs := by
  have two (t : Assembler) (b c : UInt8) : (t.emit b).emit c = t.emitAll #[b, c] := by
    rw [emit_eq_emitAll, emit_eq_emitAll, emitAll_emitAll]
    rfl
  unfold emitWord
  dsimp only
  rw [two]
  split
  · rename_i absolute
    exact ⟨none, _, _, rfl, writes_none (.inl rfl) (.inl Nat.two_pos) (.inl (by simp [Address.isConst, absolute]))⟩
  · rename_i unknown
    refine ⟨none, _, _, rfl, writes_none (.inl rfl) (.inl Nat.two_pos) (.inr (.inl ?_))⟩
    simp [Address.isUndefined, unknown]
  · rename_i number unknown
    -- of a byte of an address the second byte is a zero that no use covers
    have image : ∃ more, #[(a.part.apply a.value).toUInt8, (a.part.apply a.value >>> 8).toUInt8] = a.image ++ more := by
      unfold Address.image
      dsimp only
      split
      · exact ⟨#[], rfl⟩
      · exact ⟨#[_], rfl⟩
    obtain ⟨more, image⟩ := image
    exact ⟨_, _, _, rfl, writes_some a.part more number unknown image⟩

/-- The byte that is written stands where the segment ended. -/
theorem getElem?_emit {s t : Assembler} (segments : t.segments = s.segments) (current : t.current = s.current) (b : UInt8) :
    ((t.emit b).segment s.current).bytes[(s.segment s.current).size]? = some b := by
  rw [← current, segment_emit_self, segment, segment, segments, Segment.push, Segment.size]
  exact Array.getElem?_push_size

/-- What is written for a byte operand is its address narrowed to a byte. The cases are those of its origin. -/
theorem narrowed_emitByteOperand (s : Assembler) (pos : Position) (a : Address) :
    (s.emitByteOperand pos a).Narrowed s.here a := by
  have known (h : a.origin = .undefined) : a.isUndefined = true := beq_iff_eq.2 h
  unfold emitByteOperand
  dsimp only
  split
  · rename_i absolute
    have number : a.isConst = true := by simp [Address.isConst, absolute]
    have place (other : a.isConst = false) {p : Prop} : p := by cases number.symm.trans other
    split
    · rename_i fits
      exact ⟨List.mem_cons_self .., fun _ => ⟨.inl fits, _, _, rfl, getElem?_emit rfl rfl _⟩, fun other => place other⟩
    · have failed := Diagnostics.isEmpty_record s.diagnostics (.at_ (.valueTooLarge a) pos)
      exact ⟨List.mem_cons_self .., fun _ => ⟨.inr failed, _, _, rfl, getElem?_emit rfl rfl _⟩, fun other => place other⟩
  · rename_i unknown
    refine ⟨List.mem_cons_self .., fun number => ?_, fun _ other => ?_⟩
    · simp [Address.isConst, unknown] at number
    · simp [Address.isUndefined, unknown] at other
  · rename_i other unknown
    have number {p : Prop} (h : a.isConst = true) : p := (other (beq_iff_eq.1 h)).elim
    split
    · split
      · rename_i zeroPage
        exact ⟨List.mem_cons_self .., number, fun _ _ _ => .inl ⟨zeroPage, Std.ExtTreeMap.getElem?_insert_self⟩⟩
      · exact ⟨List.mem_cons_self .., number, fun _ _ _ => .inr (Diagnostics.isEmpty_record _ _)⟩
    · rename_i byte
      exact ⟨List.mem_cons_self .., number, fun _ _ word => (byte word).elim⟩

theorem acts_emitByteOperand (pos : Position) {a : Address} (aims : s.Aims ids a) :
    Acts ids s (s.emitByteOperand pos a) := by
  obtain ⟨use, d, bs, same, writes⟩ := s.emitByteOperand_eq pos a
  rw [same]
  exact .single (.operand bs aims writes)

theorem acts_emitWord {a : Address} (aims : s.Aims ids a) : Acts ids s (s.emitWord a) := by
  obtain ⟨use, d, bs, same, writes⟩ := s.emitWord_eq a
  rw [same]
  exact .single (.operand bs aims writes)

/-- A pointer is a word; one that is refused counts as an operand without bytes, and zeros follow. -/
theorem acts_emitPointer (pos : Position) {a : Address} (aims : s.Aims ids a) : Acts ids s (s.emitPointer pos a) := by
  unfold emitPointer
  split
  · have failed := Diagnostics.isEmpty_record s.diagnostics (.at_ (.byteAsPointer a) pos)
    have zeros : (s.log (.operand s.here a)).record (.at_ (.byteAsPointer a) pos) =
        s.wrote a none (s.diagnostics.record (.at_ (.byteAsPointer a) pos)) #[] := by
      have same : s.segments.modify s.current (·.append #[]) = s.segments := by
        cases s.current <;> simp [PerSpace.modify, Segment.append]
      simp only [wrote, same]
      rfl
    dsimp only
    rw [zeros]
    refine .head (.operand #[] aims (writes_none (.inr ⟨_, rfl⟩) (.inr failed) (.inr (.inr failed)))) (acts_emitWord ?_)
    exact (known_constant _ 0).aims
  · exact acts_emitWord aims

/-- What is aimed at stays so while no block is opened or closed. -/
theorem Aims.mono {a : Address} (h : s.Aims ids a) (sound : s.Sound) (acts : Acts ids s t) : t.Aims ids a := by
  have quiet := acts.quiet sound
  have grows := acts.steps.grows
  refine ⟨fun later unknown => ?_, h.drawn.mono grows⟩
  obtain failed | ⟨id, mem, high, absent⟩ := h.reported (grows.pass ▸ later) unknown
  · exact .inl (grows.diagnostics failed)
  · exact .inr ⟨id, mem, high, by rw [quiet.labels high]; exact absent⟩

/-- A decision about a branch gets an entry in the log, and nothing else but the trace changes. -/
theorem exists_of_reach {pos : Position} {target : Address} {short long : Nat} {r : Reach}
    (run : Asm.reach pos target short long s = .ok r t) :
    ∃ length, s.estimate pos target short long s.reachLog.size = (.ok r, length)
      ∧ t = log { s with reachLog := s.reachLog.push ⟨pos, s.here.value, length⟩ }
        (.branch s.reachLog.size pos s.here target r) := by
  unfold Asm.reach at run
  cases decided : s.estimate pos target short long s.reachLog.size with
  | mk outcome length =>
    dsimp only at run
    rw [decided] at run
    cases outcome with
    | error e => cases run
    | ok r =>
      cases run
      exact ⟨length, rfl, rfl⟩

/-- A branch is logged with the length of one of its forms. -/
theorem estimate_length {pos : Position} {target : Address} {long index length : Nat} {outcome : Except Error Reach}
    (two : 2 ≤ long) (h : s.estimate pos target 2 long index = (outcome, length)) : 2 ≤ length := by
  unfold estimate at h
  dsimp only at h
  split at h
  · cases h; exact two
  · split at h
    · cases h; exact Nat.le_refl 2
    · split at h <;> cases h
      · exact Nat.le_refl 2
      · exact two

/-- Deciding about a branch and writing it: an opcode, after which the address of a jump may follow. -/
theorem does_reach (pos : Position) (target : Address) {long : Nat} (two : 2 ≤ long) {write : Reach → Asm Unit}
    (form : ∀ (s : Assembler) (r : Reach) (length : Nat), ∃ p bs, s.BranchForm r p bs ∧
      let decided := log { s with reachLog := s.reachLog.push ⟨pos, s.here.value, length⟩ }
        (.branch s.reachLog.size pos s.here target r)
      (write r decided = .ok () (s.branched pos target r length p bs) ∨
        write r decided = .ok () ((s.branched pos target r length p bs).emitPointer pos target))) :
    Does (Acts ids) (fun s => s.Aims ids target) (Asm.reach pos target 2 long >>= write) (fun _ _ => True) := by
  refine .ofResult fun s sound aims => ?_
  have unfolded : (Asm.reach pos target 2 long >>= write) s = EStateM.bind (Asm.reach pos target 2 long) write s := rfl
  rw [unfolded]
  unfold EStateM.bind Asm.reach
  dsimp only
  cases decided : s.estimate pos target 2 long s.reachLog.size with
  | mk outcome length =>
    cases outcome with
    | error e => exact .single (.refuse (estimate_length two decided))
    | ok r =>
      obtain ⟨p, bs, wellFormed, run⟩ := form s r length
      have act : Action ids s (s.branched pos target r length p bs) := .branch aims two decided wellFormed
      dsimp only at run ⊢
      obtain run | run := run
      · rw [run]
        exact ⟨.single act, trivial⟩
      · rw [run]
        exact ⟨.head act (acts_emitPointer pos (aims.mono sound (.single act))), trivial⟩

theorem emitShort_eq (op : UInt8) (k : Int) (s : Assembler) :
    Asm.emitShort op k s = .ok () (s.emitAll #[op, offsetByte k]) := by
  show EStateM.Result.ok () ((s.emit op).emit (offsetByte k)) = _
  rw [emit_eq_emitAll, emit_eq_emitAll, emitAll_emitAll]
  rfl

theorem emitJump_eq (target : Address) (pos : Position) (s : Assembler) :
    Asm.emitJump target pos s = .ok () ((s.emitAll #[Opcode.jump]).emitPointer pos target) := by
  show EStateM.Result.ok () ((s.emit Opcode.jump).emitPointer pos target) = _
  rw [emit_eq_emitAll]

theorem emitAround_eq (op : UInt8) (target : Address) (pos : Position) (s : Assembler) :
    Asm.emitAround op target pos s =
      .ok () ((s.emitAll #[Opcode.inverted op, 3, Opcode.jump]).emitPointer pos target) := by
  show Asm.emitJump target pos ((s.emit (Opcode.inverted op)).emit 3) = _
  rw [emitJump_eq, emit_eq_emitAll, emit_eq_emitAll, emitAll_emitAll, emitAll_emitAll]
  rfl

/-- A branch takes actions alone: what it writes is one of the forms for what was decided about its reach. -/
theorem does_branch (op : UInt8) (target : Address) (pos : Position) :
    Does (Acts ids) (fun s => s.Aims ids target) (Asm.branch op target pos) (fun _ _ => True) := by
  refine .getThen fun s _ aims => ?_
  cases s.options.longBranches with
  | false =>
    refine (does_reach pos target (Nat.le_refl 2) fun t r length => ?_).fromState aims
    cases r with
    | short k => exact ⟨_, _, .short op k, .inl (emitShort_eq op k _)⟩
    | far d => exact ⟨_, _, .far op d _, .inl (emitShort_eq op 0 _)⟩
    | unknown => exact ⟨_, _, .unknown op, .inl (emitShort_eq op 0 _)⟩
  | true =>
    cases op == Opcode.branchAlways with
    | true =>
      refine (does_reach pos target (by decide) fun t r length => ?_).fromState aims
      cases r with
      | short k => exact ⟨_, _, .short op k, .inl (emitShort_eq op k _)⟩
      | far | unknown => exact ⟨_, _, .jump (by simp), .inr (emitJump_eq target pos _)⟩
    | false =>
      refine (does_reach pos target (by decide) fun t r length => ?_).fromState aims
      cases r with
      | short k => exact ⟨_, _, .short op k, .inl (emitShort_eq op k _)⟩
      | far | unknown => exact ⟨_, _, .around op (by simp), .inr (emitAround_eq op target pos _)⟩

theorem does_branchIf (c : Condition) (target : Address) (pos : Position) :
    Does (Acts ids) (fun s => s.Aims ids target) (Asm.branchIf c target pos) (fun _ _ => True) := by
  refine does_reach pos target (by decide) fun t r length => ?_
  cases r with
  | short k => exact ⟨_, _, .short _ k, .inl (emitShort_eq _ k _)⟩
  | far | unknown => exact ⟨_, _, .around _ (by simp), .inr (emitAround_eq _ target pos _)⟩

theorem does_jump (target : Address) (pos : Position) :
    Does (Acts ids) (fun s => s.Aims ids target) (Asm.jump target pos) (fun _ _ => True) := by
  refine .getThen fun s sound aims => ?_
  split
  · refine (does_reach pos target (by decide) fun t r length => ?_).fromState aims
    cases r with
    | short k => exact ⟨_, _, .short _ k, .inl (emitShort_eq _ k _)⟩
    | far | unknown => exact ⟨_, _, .jump (by simp), .inr (emitJump_eq target pos _)⟩
  · refine .modify fun t _ same => ⟨?_, trivial⟩
    subst same
    rw [emit_eq_emitAll]
    have opcode : Acts ids t (t.emitAll #[Opcode.jump]) := .single (.bytes _)
    exact opcode.trans (acts_emitPointer pos (aims.mono sound opcode))

end Assembler

end Asm65
