import Asm65.Proofs.LastNames

/-!
# The result of a run

A run that succeeds has settled: what its last pass saw and wrote agrees with the object module it returns.
Nothing unknown was written, and the symbols are a solution of the source: every name had the same address
wherever the pass asked for it, labels are where they stand, and the names defined by expressions have the
values of these expressions.
-/

namespace Asm65.Assembler
set_option autoImplicit false

variable {s t : Assembler}

/-- How a symbol was defined: elsewhere, by its place, or by an expression. -/
def Explained (s : Assembler) (id : SymbolId) (sym : Symbol) : Prop :=
  sym.address = .external id ∨ (∃ space offset, .placed sym.name space offset ∈ s.trace) ∨
    ∃ tokens space offset value, .equated sym.name tokens space offset value ∈ s.trace

/-- Every symbol defined in this pass can be explained. -/
def Accounted (s : Assembler) : Prop :=
  ∀ id sym, s.symbols.get? id = some sym → id.toNat < autoLabelBase → sym.pass = s.pass → s.Explained id sym

theorem Explained.mono {id : SymbolId} {sym : Symbol} (h : s.Explained id sym) (grows : Grows s t) :
    t.Explained id sym := by
  obtain external | ⟨space, offset, mem⟩ | ⟨tokens, space, offset, value, mem⟩ := h
  · exact .inl external
  · exact .inr (.inl ⟨space, offset, grows.mem_trace mem⟩)
  · exact .inr (.inr ⟨tokens, space, offset, value, grows.mem_trace mem⟩)

namespace Accounted

/-- What changes no entry of a name defined in this pass. -/
theorem keep (accounted : s.Accounted) (grows : Grows s t)
    (entries : ∀ id sym, t.symbols.get? id = some sym → id.toNat < autoLabelBase → sym.pass = s.pass →
      ∃ old, s.symbols.get? id = some old ∧ old.pass = sym.pass ∧ old.name = sym.name ∧ old.address = sym.address) :
    t.Accounted := by
  intro id sym found low defined
  rw [grows.pass] at defined
  obtain ⟨old, before, pass, name, address⟩ := entries id sym found low defined
  have := (accounted id old before low (pass.trans defined)).mono grows
  rwa [Explained, name, address] at this

theorem of_eq (accounted : s.Accounted) (grows : Grows s t) (symbols : t.symbols = s.symbols) : t.Accounted :=
  accounted.keep grows fun _ sym found _ _ => ⟨sym, symbols ▸ found, rfl, rfl, rfl⟩

/-- Defining a name that an event or its address explains. -/
theorem define (accounted : s.Accounted) (sound : s.Sound) (grows : Grows s t) {id : SymbolId} {name : String}
    {a : Address} (known : s.identifiers.ids[name]? = some id)
    (new : (s.symbols.define id name a s.pass).1 ≠ .duplicate)
    (symbols : t.symbols = (s.symbols.define id name a s.pass).2)
    (explained : ∀ sym, sym.name = name → sym.address = a → t.Explained id sym) : t.Accounted := by
  intro k sym found low defined
  rw [symbols] at found
  obtain before | ⟨rfl, address, -, named⟩ := s.symbols.of_get?_define id name a s.pass new found
  · exact (accounted k sym before low (defined.trans grows.pass)).mono grows
  · refine explained sym ?_ address
    obtain same | ⟨old, before, same⟩ := named
    · exact same
    · exact same ▸ sound.numbered.unique (sound.symbols.named before low) known

/-- An action explains the symbol that it defines: by its event, or by an external address. -/
theorem act {ids : List SymbolId} (accounted : s.Accounted) (sound : s.Sound) (begun : 0 < s.pass)
    (h : Action ids s t) : t.Accounted := by
  have grows := h.grows
  cases h with
  | load h => exact accounted.of_eq grows (by rw [load_eq h])
  | lookUp pos known => exact accounted.of_eq grows (by rw [lookUp_eq])
  | place known new =>
    refine accounted.define sound grows known new rfl ?_
    rintro sym rfl -
    exact .inr (.inl ⟨_, _, List.mem_cons_self ..⟩)
  | equate known new =>
    refine accounted.define sound grows known new rfl ?_
    rintro sym rfl -
    exact .inr (.inr ⟨_, _, _, _, List.mem_cons_self ..⟩)
  | declareExternal known new => exact accounted.define sound grows known new rfl fun _ _ external => .inl external
  | @declarePublic name id known =>
    refine accounted.keep grows fun k sym found _ defined => ?_
    obtain before | ⟨-, -, never, -⟩ := s.symbols.of_get?_declarePublic id name found
    · exact before
    · exact absurd (never.symm.trans defined) (Nat.ne_of_lt begun)
  | read | intern | report | clash | switch | bytes | operand | mark | branch | refuse => exact accounted.of_eq grows rfl

theorem step (accounted : s.Accounted) (sound : s.Sound) (begun : 0 < s.pass) (h : Step s t) : t.Accounted := by
  have grows := h.grows
  cases h with
  | act h => exact accounted.act sound begun h
  | @settle id auto new =>
    refine accounted.keep grows fun k sym found low _ => ⟨sym, ?_, rfl, rfl, rfl⟩
    refine (s.symbols.get?_define_of_ne "" s.here s.pass ?_).symm.trans found
    rintro rfl
    omega
  | @drop id auto free =>
    exact accounted.keep grows fun k sym found _ _ => ⟨sym, SymbolTable.of_get?_erase found, rfl, rfl, rfl⟩
  | allot | clash | blocks | begin | list | stop => exact accounted.of_eq grows rfl

theorem steps (accounted : s.Accounted) (sound : s.Sound) (begun : 0 < s.pass) (h : Steps s t) : t.Accounted := by
  induction h with
  | refl => exact accounted
  | tail walked h ih => exact ih.step (sound.steps walked) ((Steps.grows walked).pass ▸ begun) h

end Accounted

theorem LastPass.accounted {b : Assembler} (last : LastPass b t) : t.Accounted := by
  have begun : 0 < b.pass := by
    rw [← last.reaches.steps.grows.pass]
    exact Nat.lt_of_lt_of_le Nat.zero_lt_two last.later
  refine Accounted.steps (fun id sym found _ defined => ?_) last.sound begun last.reaches.steps
  exact absurd defined (Nat.ne_of_lt (last.dated id sym found))

namespace LastPass

variable {b : Assembler}

theorem sound_end (last : LastPass b t) : t.Sound := last.sound.steps last.reaches.steps

/-- In a last pass a name has one address, and the module has it too. -/
theorem address?_eq (last : LastPass b t) {name : String} {a : Address} (names : t.Names name a) :
    t.toObject.address? name = some a := by
  obtain ⟨id, known, entry, settled⟩ := names
  obtain ⟨sym, found⟩ := Option.isSome_iff_exists.1 entry
  have address := settled last.later last.still
  rw [SymbolTable.address_of_get? found] at address
  rw [Object.address?_eq rfl last.sound_end.symbols last.sound_end.numbered known, found, Option.map_some, address]

/-- In a last pass all names that are asked for are known. -/
theorem names_of_lookup (last : LastPass b t) {id : SymbolId} {name : String} {value : Address}
    (mem : .lookup id name value ∈ t.trace) : t.Names name value := by
  obtain ⟨known, reported, settled⟩ := last.holds _ mem
  refine ⟨id, known, ?_, settled⟩
  cases found : t.symbols.get? id with
  | some sym => rfl
  | none =>
    have unknown : value.isUndefined = true := by
      rw [← settled last.later last.still, SymbolTable.address, found]
      rfl
    have failed := reported.reported last.later unknown
    rw [last.clean] at failed
    cases failed

end LastPass

/-- A result that passes a check. -/
theorem exists_result (r : Except Diagnostics Assembly × Assembler) (p : Assembly → Assembler → Bool)
    (h : (match r with
      | (.ok asm, t) => p asm t
      | (.error _, _) => false) = true) : ∃ asm t, r = (.ok asm, t) ∧ p asm t = true := by
  split at h
  · exact ⟨_, _, rfl, h⟩
  · cases h

/-- A run with a result that passes a check. -/
theorem exists_run (s : Assembler) (root : Nat) (p : Assembly → Assembler → Bool)
    (h : (match s.run root with
      | (.ok asm, t) => p asm t
      | (.error _, _) => false) = true) : ∃ asm t, s.run root = (.ok asm, t) ∧ p asm t = true :=
  exists_result (s.run root) p h

/-- A run that succeeds made at least two passes, and in the last one no operand and no target of a branch was
unknown: what was written for an operand is a number or has a use. -/
theorem nothing_unknown_of_run {root : Nat} {asm : Assembly} (new : s.IsNew) (run : s.run root = (.ok asm, t)) :
    2 ≤ asm.passes
      ∧ (∀ site value, .operand site value ∈ t.trace →
          value.isUndefined = false ∧ (value.isConst = true ∨ site ∈ asm.object.uses))
      ∧ (∀ index pos site target reach, .branch index pos site target reach ∈ t.trace →
          target.isUndefined = false ∧ reach ≠ .unknown) := by
  obtain ⟨b, u, last, concludes⟩ := exists_lastPass new run
  rw [concludes.passes, concludes.object, concludes.trace]
  refine ⟨last.later, fun site value mem => ?_, fun index pos site target reach mem => ?_⟩
  · have known : value.isUndefined = false := last.isBlind_eq_false mem
    obtain const | unknown | used | failed := last.holds _ mem
    · exact ⟨known, .inl const⟩
    · rw [known] at unknown; cases unknown
    · exact ⟨known, .inr used⟩
    · rw [last.clean] at failed; cases failed
  · have known : target.isUndefined = false := last.isBlind_eq_false mem
    refine ⟨known, ?_⟩
    rintro rfl
    have unknown : target.isUndefined = true := last.holds _ mem
    rw [known] at unknown
    cases unknown

/-- The first pass leaves a jump over the block and the block's own jump open; the last one fills them in. -/
theorem nothing_unknown_jump_out_of_block :
    ∃ asm t, (ofText " if ne\n jmp q\n endif\nq: nop\n").run 0 = (.ok asm, t) ∧ 2 ≤ asm.passes
      ∧ .operand (.inSpace .code 3) (.inSpace .code 5) ∈ t.trace ∧ Address.inSpace .code 3 ∈ asm.object.uses := by
  obtain ⟨asm, t, run, checked⟩ := exists_run (ofText " if ne\n jmp q\n endif\nq: nop\n") 0
    (fun _ t => decide (.operand (.inSpace .code 3) (.inSpace .code 5) ∈ t.trace)) (by decide +kernel)
  obtain ⟨passes, operands, -⟩ := nothing_unknown_of_run (isNew_ofText _) run
  have mem := of_decide_eq_true checked
  obtain ⟨-, const | used⟩ := operands _ _ mem
  · cases const
  · exact ⟨asm, t, run, passes, mem, used⟩

/-- The symbols of a run that succeeds solve its source. Whenever its last pass asked for a name it got the
address that the name has in the module; a label has the offset where it stands; a name defined by an expression
has the value of the expression in terms of the module's own addresses, `*` being the place of the statement. And
every symbol of the last pass is such a label, such a name, or external. All symbols with names are of the last pass if
no file can be read but those of the table, and each of these is empty or ends with a line. -/
theorem symbols_solve_source {root : Nat} {asm : Assembly} (new : s.IsNew) (run : s.run root = (.ok asm, t))
    (fits : ∀ space, (asm.object.segment space).size ≤ 65535) :
    (∀ id name value, .lookup id name value ∈ t.trace → asm.object.address? name = some value)
      ∧ (∀ name space offset, .placed name space offset ∈ t.trace →
          ∃ v : UInt16, asm.object.address? name = some (.inSpace space v) ∧ v.toNat = offset
            ∧ offset ≤ (asm.object.segment space).size)
      ∧ (∀ name tokens space offset value, .equated name tokens space offset value ∈ t.trace →
          asm.object.address? name = some value
            ∧ ∃ (v : UInt16) (rest : Scope Address), v.toNat = offset ∧ offset ≤ (asm.object.segment space).size
              ∧ Expression.read
                  (⟨tokens, fun n => (asm.object.address? n).getD .undefined, .inSpace space v⟩ : Scope Address)
                = .ok value rest)
      ∧ (∀ (id : SymbolId) (sym : Symbol), asm.object.symbols[id]? = some sym → sym.pass = asm.passes →
          t.Explained id sym)
      ∧ (s.files.Lined → s.files.Sealed s.disk →
          ∀ (id : SymbolId) (sym : Symbol), asm.object.symbols[id]? = some sym → sym.pass = asm.passes) := by
  have named (lined : s.files.Lined) (closed : s.files.Sealed s.disk) (id : SymbolId) (sym : Symbol)
      (found : asm.object.symbols[id]? = some sym) : sym.pass = asm.passes :=
    pass_eq_of_run new run lined closed found
  obtain ⟨b, u, last, concludes⟩ := exists_lastPass new run
  rw [concludes.object] at fits named ⊢
  rw [concludes.passes] at named ⊢
  simp only [Explained, concludes.trace]
  have exact_offset {space : Space} {offset : Nat} (room : offset ≤ (u.segment space).size) :
      (UInt16.ofNat offset).toNat = offset :=
    UInt16.toNat_ofNat_of_lt' (Nat.lt_of_le_of_lt (Nat.le_trans room (fits space)) (by decide))
  refine ⟨fun id name value mem => ?_, fun name space offset mem => ?_, fun name tokens space offset value mem => ?_,
    fun id sym found defined => ?_, named⟩
  · exact last.address?_eq (last.names_of_lookup mem)
  · obtain ⟨names, room⟩ := last.holds _ mem
    exact ⟨_, last.address?_eq names, exact_offset room, room⟩
  · obtain ⟨names, room, settled⟩ := last.holds _ mem
    obtain ⟨rest, evaluates⟩ := settled last.later last.still
    exact ⟨last.address?_eq names, _, rest, exact_offset room, room, evaluates⟩
  · obtain ⟨entry, low⟩ := SymbolTable.getElem?_named.1 found
    exact last.accounted id sym entry low defined

/-- A name defined ahead of the label that it is two bytes after. -/
theorem symbols_solve_forward_definition :
    ∃ asm t, (ofText "a = b + 2\nb: nop\n dw a\n").run 0 = (.ok asm, t)
      ∧ (∀ space, (asm.object.segment space).size ≤ 65535)
      ∧ .lookup 2 "a" (.inSpace .code 2) ∈ t.trace ∧ asm.object.address? "a" = some (.inSpace .code 2)
      ∧ .placed "b" .code 0 ∈ t.trace
      ∧ (∃ v : UInt16, asm.object.address? "b" = some (.inSpace .code v) ∧ v.toNat = 0)
      ∧ ∀ (id : SymbolId) (sym : Symbol), asm.object.symbols[id]? = some sym → t.Explained id sym := by
  obtain ⟨asm, t, run, checked⟩ := exists_run (ofText "a = b + 2\nb: nop\n dw a\n") 0
    (fun asm t => decide (.lookup 2 "a" (.inSpace .code 2) ∈ t.trace) && decide (.placed "b" .code 0 ∈ t.trace)
      && Space.all.all fun space => (asm.object.segment space).size ≤ 65535) (by decide +kernel)
  rw [Bool.and_eq_true, Bool.and_eq_true, decide_eq_true_eq, decide_eq_true_eq] at checked
  obtain ⟨⟨asked, placed⟩, small⟩ := checked
  have fits : ∀ space, (asm.object.segment space).size ≤ 65535 := by
    simp only [Space.all, List.all_cons, List.all_nil, Bool.and_true, Bool.and_eq_true, decide_eq_true_eq] at small
    intro space
    cases space
    · exact small.1
    · exact small.2.1
    · exact small.2.2
  have lined : (ofText "a = b + 2\nb: nop\n dw a\n").files.Lined := by
    unfold SourceTable.Lined
    decide +kernel
  obtain ⟨lookups, labels, -, explained, named⟩ := symbols_solve_source (isNew_ofText _) run fits
  obtain ⟨v, address, offset, -⟩ := labels _ _ _ placed
  have last := named lined (SourceTable.sealed_of_empty rfl _)
  exact ⟨asm, t, run, fits, asked, lookups _ _ _ asked, placed, ⟨v, address, offset⟩,
    fun id sym found => explained id sym found (last id sym found)⟩

/-- Two files `c.inc`. The one in the folder `sub` has a label and a definition, the other one nothing. -/
def twoOfOneName : Disk :=
  let disk := ({} : Disk).add ⟨"main.asm"⟩
    " bne lab\n nop\nlab:\n include \"sub/b.inc\"\n include \"c.inc\"\n dw k\n".toUTF8.data
  let disk := disk.add ⟨"sub/b.inc"⟩ " include \"c.inc\"\n".toUTF8.data
  (disk.add ⟨"sub/c.inc"⟩ " public foo\nfoo:\nk = lab+1\n".toUTF8.data).add ⟨"c.inc"⟩ #[]

/-- The first pass reads the file in the folder, and then loads the other one, which the name stands for from there on. So
`foo` and `k` keep the values of the first pass, when the branch was three bytes longer: the last pass has neither, and `k`
is not the address behind `lab`. -/
theorem symbols_outlive_lines :
    ∃ asm t, (new .mos6502 {} twoOfOneName).assembleFile ⟨"main.asm"⟩ = (.ok asm, t)
      ∧ (∀ space, (asm.object.segment space).size ≤ 65535) ∧ asm.passes = 3
      ∧ Naming.here "foo" ∉ t.given ∧ Naming.here "k" ∉ t.given
      ∧ asm.object.publics.map (·.name) = ["foo"] ∧ (asm.object.segment .code).size = 5
      ∧ asm.object.address? "foo" = some (.inSpace .code 6)
      ∧ asm.object.address? "lab" = some (.inSpace .code 3) ∧ asm.object.address? "k" = some (.inSpace .code 7) := by
  obtain ⟨asm, t, run, checked⟩ := exists_result ((new .mos6502 {} twoOfOneName).assembleFile ⟨"main.asm"⟩)
    (fun asm t => decide ((∀ space ∈ Space.all, (asm.object.segment space).size ≤ 65535) ∧ asm.passes = 3
      ∧ Naming.here "foo" ∉ t.given ∧ Naming.here "k" ∉ t.given
      ∧ asm.object.publics.map (·.name) = ["foo"] ∧ (asm.object.segment .code).size = 5
      ∧ asm.object.address? "foo" = some (.inSpace .code 6)
      ∧ asm.object.address? "lab" = some (.inSpace .code 3) ∧ asm.object.address? "k" = some (.inSpace .code 7)))
    (by decide +kernel)
  obtain ⟨small, rest⟩ := of_decide_eq_true checked
  exact ⟨asm, t, run, fun space => small space space.mem_all, rest⟩

end Asm65.Assembler
