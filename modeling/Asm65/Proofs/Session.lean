import Asm65.Proofs.Result

/-!
# Several runs of one assembler

An assembler keeps its files, names and symbols from run to run, and also that a run was stopped by an error. Where
none has been, a run that succeeds has settled, whatever the runs before it left: nothing it defines has moved since
the pass before, and nothing unknown was written. After a run that was stopped, a run that succeeds has made one pass
only.
-/

namespace Asm65
set_option autoImplicit false

def Event.isDefinition : Event → Bool
  | .defined .. => true
  | _ => false

namespace Assembler

variable {b s t : Assembler}

/-! ### What a pass finds -/

/-- Nothing has moved since the pass started from `b`: entries that it has not defined have the address they had, and
so have those that it has. -/
structure Unmoved (b s : Assembler) : Prop where
  entries {id : SymbolId} {sym : Symbol} (found : s.symbols.get? id = some sym) (old : sym.pass ≠ s.pass) :
    sym.address = b.symbols.address id
  events {id : SymbolId} {a : Address} (defined : .defined id a ∈ s.trace) : b.symbols.address id = a

namespace Unmoved

theorem of_eq (unmoved : Unmoved b s) (symbols : t.symbols = s.symbols) (pass : t.pass = s.pass)
    (trace : ∀ {id : SymbolId} {a : Address}, .defined id a ∈ t.trace → .defined id a ∈ s.trace) : Unmoved b t :=
  ⟨fun found old => unmoved.entries (symbols ▸ found) (pass ▸ old), fun defined => unmoved.events (trace defined)⟩

/-- Events other than definitions move nothing. -/
theorem of_event (unmoved : Unmoved b s) (symbols : t.symbols = s.symbols) (pass : t.pass = s.pass) {e : Event}
    (trace : t.trace = e :: s.trace) (other : e.isDefinition = false) : Unmoved b t :=
  unmoved.of_eq symbols pass fun defined => Event.mem_of_kind Event.isDefinition (trace ▸ defined) rfl other

theorem log (unmoved : Unmoved b s) {e : Event} (other : e.isDefinition = false) : Unmoved b (s.log e) :=
  unmoved.of_event rfl rfl rfl other

/-- A definition that moves nothing finds its address in an entry from before. -/
theorem assign (unmoved : Unmoved b s) {id : SymbolId} {name : String} {a : Address} (later : 2 ≤ s.pass)
    (new : (s.symbols.define id name a s.pass).1 ≠ .duplicate) (still : (s.assign id name a).moved = false) :
    Unmoved b (s.assign id name a) := by
  refine ⟨fun {k sym} found old => ?_, fun {k a'} defined => ?_⟩
  · obtain before | ⟨-, -, pass, -⟩ := s.symbols.of_get?_define id name a s.pass new found
    · exact unmoved.entries before old
    · exact (old pass).elim
  · obtain now | before := List.mem_cons.1 defined
    · cases now
      obtain ⟨sym, found, rfl⟩ :=
        s.symbols.exists_of_define_eq_unchanged id name a s.pass later (define_eq_unchanged new still)
      have old : sym.pass ≠ s.pass := fun same =>
        new ((s.symbols.define_eq_duplicate_iff id name _ s.pass).2 ⟨sym, found, same⟩)
      exact (unmoved.entries found old).symm
    · exact unmoved.events before

/-- An action after which nothing has moved leaves addresses as they were when the pass began. -/
theorem act {ids : List SymbolId} (unmoved : Unmoved b s) (sound : s.Sound) (grows : Grows b s) (later : 2 ≤ s.pass)
    (h : Action ids s t) (still : t.moved = false) : Unmoved b t := by
  cases h with
  | load h => rw [load_eq h]; exact unmoved.of_eq rfl rfl id
  | lookUp pos known =>
    rw [lookUp_eq]
    exact unmoved.of_event rfl rfl rfl rfl
  | place known new => exact (unmoved.assign later new still).log rfl
  | equate known new => exact (unmoved.assign later new still).log rfl
  | declareExternal known new => exact (unmoved.assign later new still).log rfl
  | @declarePublic name id known =>
    have events {k : SymbolId} {a : Address} (defined : .defined k a ∈ .declared name true :: s.trace) :=
      unmoved.events (Event.mem_of_kind Event.isDefinition defined rfl rfl)
    refine ⟨fun {k sym} found old => ?_, events⟩
    obtain ⟨entry, before, pass, -, address⟩ | ⟨rfl, -, -, unknown, absent⟩ := s.symbols.of_get?_declarePublic id name found
    · rw [← address]
      exact unmoved.entries before (pass ▸ old)
    · -- a name without entry had none when the pass began
      have low := sound.numbered.toNat_lt known
      have none : b.symbols.get? k = none := by
        refine Option.not_isSome_iff_eq_none.1 fun known => ?_
        have kept := grows.entries low known
        rw [absent] at kept
        cases kept
      rw [unknown, SymbolTable.address, none]
  | clash | operand | mark | branch => exact unmoved.of_event rfl rfl rfl rfl
  | read | intern | report | switch | bytes | refuse => exact unmoved.of_eq rfl rfl id

theorem step (unmoved : Unmoved b s) (sound : s.Sound) (grows : Grows b s) (later : 2 ≤ s.pass) (h : Step s t)
    (still : t.moved = false) : Unmoved b t := by
  cases h with
  | act h => exact unmoved.act sound grows later h still
  | allot | clash => exact unmoved.of_event rfl rfl rfl rfl
  | settle auto new => exact unmoved.assign later new still
  | drop auto free =>
    exact ⟨fun found old => unmoved.entries (SymbolTable.of_get?_erase found) old,
      fun mem => unmoved.events (Event.mem_of_kind Event.isDefinition mem rfl rfl)⟩
  | blocks | begin | list | stop => exact unmoved.of_eq rfl rfl id

theorem steps (sound : b.Sound) (trace : b.trace = []) (later : 2 ≤ b.pass) (h : Steps b t) (still : t.moved = false) :
    Unmoved b t := by
  induction h with
  | refl =>
    refine ⟨fun found _ => (SymbolTable.address_of_get? found).symm, fun defined => ?_⟩
    rw [trace] at defined
    cases defined
  | tail walked step ih =>
    have grows := Steps.grows walked
    exact (ih (step.grows.moved_eq_false still)).step (sound.steps walked) grows (grows.pass ▸ later) step still

end Unmoved

theorem FinalPass.unmoved (final : FinalPass b t) : Unmoved b t :=
  .steps final.sound final.trace (final.reaches.steps.grows.pass ▸ final.later) final.reaches.steps final.still

theorem FinalPass.lookup_known (final : FinalPass b t) {id : SymbolId} {name : String} {value : Address}
    (asked : .lookup id name value ∈ t.trace) : value.isUndefined = false := by
  obtain ⟨-, reported, -⟩ := final.holds _ asked
  cases unknown : value.isUndefined with
  | false => rfl
  | true =>
    have failed := reported.reported final.later unknown
    rw [final.clean] at failed
    cases failed

theorem FinalPass.branch_known (final : FinalPass b t) {index : Nat} {pos : Position} {site target : Address}
    {reach : Reach} (written : .branch index pos site target reach ∈ t.trace) :
    target.isUndefined = false ∧ reach ≠ .unknown := by
  have known : target.isUndefined = false := final.isBlind_eq_false written
  refine ⟨known, ?_⟩
  rintro rfl
  have unknown : target.isUndefined = true := final.holds _ written
  rw [known] at unknown
  cases unknown

/-! ### One run -/

/-- A run from `s` that has settled. -/
structure Converged (s : Assembler) (root : Nat) (asm : Assembly) (t : Assembler) : Prop where
  passes : 2 ≤ asm.passes
  /-- The module is that of the last pass, and so is the trace. -/
  object : asm.object = (afterPasses root s.prepared asm.passes).toObject
  trace : t.trace = (afterPasses root s.prepared asm.passes).trace
  /-- What the last pass defines has the address that it had after the pass before. -/
  unmoved {id : SymbolId} {a : Address} (defined : .defined id a ∈ t.trace) :
    (afterPasses root s.prepared (asm.passes - 1)).symbols.address id = a
  lookups {id : SymbolId} {name : String} {value : Address} (asked : .lookup id name value ∈ t.trace) :
    value.isUndefined = false
  operands {site value : Address} (written : .operand site value ∈ t.trace) : value.isUndefined = false
  branches {index : Nat} {pos : Position} {site target : Address} {reach : Reach}
    (written : .branch index pos site target reach ∈ t.trace) : target.isUndefined = false ∧ reach ≠ .unknown

variable {root : Nat} {asm : Assembly}

theorem Sound.prepared (sound : s.Sound) : s.prepared.Sound := { sound with }

/-- A run settles if none was stopped before. -/
theorem converged_of_run (sound : s.Sound) (free : s.fatal = false) (run : s.run root = (.ok asm, t)) :
    s.Converged root asm t := by
  have free : s.prepared.fatal = false := free
  have concludes := concludes_of_conclude run
  obtain ⟨n, same, final⟩ := exists_finalPass_of_passes root _ sound.prepared (by simp [free]) concludes.clean
  rw [same] at concludes
  have passes : asm.passes = n + 1 := by
    rw [concludes.passes, pass_afterPasses sound.prepared]
    exact Nat.zero_add _
  have trace := concludes.trace
  refine ⟨concludes.passes ▸ final.later, ?_, ?_, fun {id a} defined => ?_, ?_, ?_, ?_⟩
  · rw [concludes.object, passes]
  · rw [trace, passes]
  · rw [trace] at defined
    rw [passes]
    exact final.unmoved.events defined
  · rw [trace]
    exact final.lookup_known
  · rw [trace]
    exact final.isBlind_eq_false
  · rw [trace]
    exact final.branch_known

/-- A run after one that was stopped makes one pass. -/
theorem passes_eq_one_of_run (sound : s.Sound) (stopped : s.fatal = true) (run : s.run root = (.ok asm, t)) :
    asm.passes = 1 := by
  have grows := (steps_onePass sound.prepared root).grows
  have still : (s.prepared.onePass root).fatal = true := grows.stopped stopped
  have concludes := concludes_of_conclude run
  rw [passes_eq] at concludes
  dsimp only at concludes
  rw [still, Bool.true_or, if_pos rfl] at concludes
  rw [concludes.passes, grows.pass]
  rfl

/-! ### One run after another -/

theorem Sound.passes {s : Assembler} (sound : s.Sound) (root more : Nat) : (passes root more s).Sound := by
  have after := (sound.begun root).steps (steps_onePass sound root)
  rw [passes_eq]
  dsimp only
  split
  · exact after
  · split
    · exact after
    · cases more with
      | zero => exact after.step (step_record _ _)
      | succ more => exact Sound.passes after root more
termination_by more

/-- Passes that were stopped have an error, if the assembler was not stopped before. -/
theorem fatal_of_passes {s : Assembler} (sound : s.Sound) (root more : Nat)
    (fatal : (passes root more s).fatal = true) :
    s.fatal = true ∨ (passes root more s).diagnostics.isEmpty = false := by
  rw [passes_eq] at fatal ⊢
  dsimp only at fatal ⊢
  split at fatal
  · rename_i stop
    rw [if_pos stop]
    exact (steps_onePass sound root).grows.fatal fatal
  · rename_i goesOn
    have free : (s.onePass root).fatal = false := by
      rw [Bool.or_eq_true, not_or] at goesOn
      exact Bool.not_eq_true _ ▸ goesOn.1
    rw [if_neg goesOn]
    split at fatal
    · rw [free] at fatal
      cases fatal
    · rename_i unsettled
      rw [if_neg unsettled]
      cases more with
      | zero => exact .inr (isEmpty_diagnostics_record _ _)
      | succ more =>
        have after := (sound.begun root).steps (steps_onePass sound root)
        obtain before | failed := fatal_of_passes after root more fatal
        · rw [free] at before
          cases before
        · exact .inr failed
termination_by more

theorem foldl_record_eq (es : List Error) (s : Assembler) :
    ∃ d, es.foldl record s = { s with diagnostics := d } := by
  induction es generalizing s with
  | nil => exact ⟨s.diagnostics, rfl⟩
  | cons e rest ih => exact ih (s.record e)

/-- The end of a run changes only what is shown of it. -/
theorem conclude_eq (s : Assembler) :
    ∃ d listing notes, s.conclude.2 = { s with diagnostics := d, provisional := #[], listing, notes } := by
  unfold conclude
  rw [← Array.foldl_toList]
  obtain ⟨d, same⟩ := foldl_record_eq s.provisional.toList { s with provisional := #[] }
  rw [same]
  dsimp only
  split
  · exact ⟨_, _, _, rfl⟩
  · exact ⟨_, _, _, rfl⟩

theorem Sound.run (sound : s.Sound) (root : Nat) : (s.run root).2.Sound := by
  have passed := sound.prepared.passes root (s.options.maxPasses - 1)
  obtain ⟨_, _, _, same⟩ := conclude_eq (Assembler.passes root (s.options.maxPasses - 1) s.prepared)
  rw [Assembler.run, same]
  exact { passed with }

/-- A run that is stopped fails. -/
theorem fatal_of_run (sound : s.Sound) (fatal : (s.run root).2.fatal = true) :
    s.fatal = true ∨ ∃ d, (s.run root).1 = .error d := by
  obtain ⟨_, _, _, same⟩ := conclude_eq (Assembler.passes root (s.options.maxPasses - 1) s.prepared)
  have stopped : (Assembler.passes root (s.options.maxPasses - 1) s.prepared).fatal = true := by
    rwa [Assembler.run, same] at fatal
  refine (fatal_of_passes sound.prepared root _ stopped).imp id fun failed => ?_
  cases run : s.run root with
  | mk result t =>
    cases result with
    | error d => exact ⟨d, rfl⟩
    | ok asm =>
      rw [(concludes_of_conclude run).clean] at failed
      cases failed

/-! ### Calls -/

/-- What can be asked of an assembler. -/
inductive Call where
  | addSource (name text : String)
  | run (root : Nat)
  | assembleFile (path : Path)

/-- The result of a run, if the call is one, and the assembler after it. -/
def Call.answer (c : Call) (s : Assembler) : Option (Except Diagnostics Assembly) × Assembler :=
  match c with
  | .addSource name text => (none, (s.addSource name text).2)
  | .run root => (some (s.run root).1, (s.run root).2)
  | .assembleFile path => (some (s.assembleFile path).1, (s.assembleFile path).2)

/-- The assembler after calls one after another. -/
def after (s : Assembler) (calls : List Call) : Assembler := calls.foldl (fun s c => (c.answer s).2) s

/-- A call adds a file, fails to read one, or runs, perhaps after reading one. -/
theorem Call.answer_cases (c : Call) (s : Assembler) :
    (∃ files, c.answer s = (none, { s with files })) ∨ (∃ d, c.answer s = (some (.error d), s))
      ∨ ∃ root files notes, c.answer s =
          (some (({ s with files, notes } : Assembler).run root).1, (({ s with files, notes } : Assembler).run root).2) := by
  cases c with
  | addSource name text => exact .inl ⟨_, rfl⟩
  | run root => exact .inr (.inr ⟨root, s.files, s.notes, rfl⟩)
  | assembleFile path =>
    cases loaded : s.load path with
    | error cause =>
      have failed : s.assembleFile path = (.error (.ofError ⟨cause, none⟩), s) := by rw [Assembler.assembleFile, loaded]
      exact .inr (.inl ⟨_, by rw [answer, failed]⟩)
    | ok found =>
      obtain ⟨root, t⟩ := found
      have runs : s.assembleFile path = t.run root := by rw [Assembler.assembleFile, loaded]
      refine .inr (.inr ⟨root, t.files, t.notes, ?_⟩)
      rw [answer, runs, ← load_eq loaded]

theorem Sound.answer (sound : s.Sound) (c : Call) : (c.answer s).2.Sound := by
  obtain ⟨files, same⟩ | ⟨d, same⟩ | ⟨root, files, notes, same⟩ := c.answer_cases s
  · rw [same]
    exact { sound with }
  · rw [same]
    exact sound
  · rw [same]
    have loaded : ({ s with files, notes } : Assembler).Sound := { sound with }
    exact loaded.run root

theorem Sound.after (sound : s.Sound) (calls : List Call) : (s.after calls).Sound := by
  induction calls generalizing s with
  | nil => exact sound
  | cons c rest ih => exact ih (sound.answer c)

/-- Only a call that fails stops the assembler. -/
theorem Call.fatal_of_answer (sound : s.Sound) {c : Call} (fatal : (c.answer s).2.fatal = true) :
    s.fatal = true ∨ ∃ d, (c.answer s).1 = some (.error d) := by
  obtain ⟨files, same⟩ | ⟨d, same⟩ | ⟨root, files, notes, same⟩ := c.answer_cases s
  · rw [same] at fatal
    exact .inl fatal
  · rw [same] at fatal
    exact .inl fatal
  · rw [same] at fatal ⊢
    have loaded : ({ s with files, notes } : Assembler).Sound := { sound with }
    refine (fatal_of_run loaded fatal).imp id ?_
    rintro ⟨d, failed⟩
    exact ⟨d, congrArg some failed⟩

/-- An assembler that is stopped was so before, or one of the calls has failed. -/
theorem fatal_of_after (sound : s.Sound) {calls : List Call} (fatal : (s.after calls).fatal = true) :
    s.fatal = true ∨ ∃ before c rest d, calls = before ++ c :: rest ∧ (c.answer (s.after before)).1 = some (.error d) := by
  induction calls generalizing s with
  | nil => exact .inl fatal
  | cons c rest ih =>
    obtain now | ⟨before, c', rest', d, rfl, failed⟩ := ih (sound.answer c) fatal
    · refine (Call.fatal_of_answer sound now).imp id ?_
      rintro ⟨d, failed⟩
      exact ⟨[], c, rest, d, rfl, failed⟩
    · exact .inr ⟨c :: before, c', rest', d, rfl, failed⟩

/-- A result of an assembler that was used before is that of a run from what the calls before left, with perhaps a file
more. If no call was stopped by an error, the run has settled: it made at least two passes, the last one moved no
symbol, and nothing unknown was asked for or written. If one was stopped, the run has made a single pass. Where all
calls before succeeded, none was stopped. -/
theorem converged_after_calls {cpu : Cpu} {options : Options} {disk : Disk} {calls : List Call} {c : Call}
    {asm : Assembly} {t : Assembler} (answered : c.answer ((new cpu options disk).after calls) = (some (.ok asm), t)) :
    ∃ (s : Assembler) (root : Nat), s.run root = (.ok asm, t)
      ∧ s = { (new cpu options disk).after calls with files := s.files, notes := s.notes }
      ∧ (s.fatal = false → s.Converged root asm t) ∧ (s.fatal = true → asm.passes = 1)
      ∧ ((∀ before c rest d, calls = before ++ c :: rest →
          (c.answer ((new cpu options disk).after before)).1 ≠ some (.error d)) → s.fatal = false) := by
  have start : (new cpu options disk).Sound := { (isNew_new cpu options disk).prepared.1 with }
  have sound := start.after calls
  obtain ⟨files, same⟩ | ⟨d, same⟩ | ⟨root, files, notes, same⟩ := c.answer_cases ((new cpu options disk).after calls)
  · cases answered.symm.trans same
  · cases answered.symm.trans same
  · have sound : ({ (new cpu options disk).after calls with files, notes } : Assembler).Sound := { sound with }
    have run : ({ (new cpu options disk).after calls with files, notes } : Assembler).run root = (.ok asm, t) := by
      obtain ⟨result, state⟩ := Prod.mk.inj (answered.symm.trans same)
      exact Prod.ext (Option.some.inj result).symm state.symm
    refine ⟨_, root, run, rfl, fun free => converged_of_run sound free run,
      fun stopped => passes_eq_one_of_run sound stopped run, fun succeeded => Bool.not_eq_true _ ▸ fun stopped => ?_⟩
    obtain before | ⟨before, c', rest, d, split, failed⟩ := fatal_of_after start stopped
    · cases before
    · exact succeeded before c' rest d split failed

/-- The first of these runs fails and is not stopped. It leaves another address of `x` to the next one, which places it
anew. -/
theorem converged_after_failed_run :
    ∃ asm t, (Call.run 1).answer ((new .mos6502 {} {}).after
        [.addSource "a.asm" "x = 1\n nop nop\n", .run 0, .addSource "b.asm" "  jmp x\nx: nop\n"]) = (some (.ok asm), t)
      ∧ 2 ≤ asm.passes ∧ .defined 1 (.inSpace .code 3) ∈ t.trace
      ∧ ∀ site value, .operand site value ∈ t.trace → value.isUndefined = false := by
  obtain ⟨asm, t, run, checked⟩ := exists_run ((new .mos6502 {} {}).after
    [.addSource "a.asm" "x = 1\n nop nop\n", .run 0, .addSource "b.asm" "  jmp x\nx: nop\n"]) 1
    (fun _ t => decide (.defined 1 (.inSpace .code 3) ∈ t.trace)) (by decide +kernel)
  have free : ((new .mos6502 {} {}).after
      [.addSource "a.asm" "x = 1\n nop nop\n", .run 0, .addSource "b.asm" "  jmp x\nx: nop\n"]).fatal = false := by
    decide +kernel
  have answered := congrArg (fun r => (some r.1, r.2)) run
  obtain ⟨s, root, -, same, converges, -⟩ := converged_after_calls (c := .run 1) answered
  have converged := converges ((congrArg Assembler.fatal same).trans free)
  exact ⟨asm, t, answered, converged.passes, of_decide_eq_true checked, fun _ _ => converged.operands⟩

/-- A missing file stops the first run. The second one then makes one pass, and writes a jump to an unknown place. -/
theorem unknown_operand_after_stopped_run :
    ∃ asm t, (Call.run 1).answer ((new .mos6502 {} {}).after
        [.addSource "a.asm" "  include \"missing.inc\"\n", .run 0, .addSource "b.asm" "  jmp x\nx: nop\n"]) =
          (some (.ok asm), t)
      ∧ asm.passes = 1 ∧ .operand (.inSpace .code 1) .undefined ∈ t.trace
      ∧ (asm.object.segment .code).bytes = #[0x4c, 0x00, 0x00, 0xea] := by
  obtain ⟨asm, t, run, checked⟩ := exists_run ((new .mos6502 {} {}).after
    [.addSource "a.asm" "  include \"missing.inc\"\n", .run 0, .addSource "b.asm" "  jmp x\nx: nop\n"]) 1
    (fun asm t => decide (asm.passes = 1) && decide (.operand (.inSpace .code 1) .undefined ∈ t.trace)
      && decide ((asm.object.segment .code).bytes = #[0x4c, 0x00, 0x00, 0xea])) (by decide +kernel)
  simp only [Bool.and_eq_true, decide_eq_true_eq] at checked
  exact ⟨asm, t, congrArg (fun r => (some r.1, r.2)) run, checked.1.1, checked.1.2, checked.2⟩

end Assembler

end Asm65
