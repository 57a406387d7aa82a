import Asm65.Proofs.StructuredStatement

/-!
# Passes and runs

A pass is a sequence of steps from a state in which nothing is written yet. A run that succeeds ends with a
pass that had no errors, moved nothing and is not the first.
-/

namespace Asm65.Assembler
set_option autoImplicit false

variable {s t : Assembler}

/-! ### Statement after statement -/

/-- What keeps `T` true between the statements of a pass, along steps that `R` allows: actions outside blocks and the
statements of blocks keep it, and if a statement fails, recording the error restores it. -/
structure Upkeep (R : Assembler → Assembler → Prop) (T : Assembler → Prop) : Prop where
  acts {s t : Assembler} (sound : s.Sound) (h : Acts [] s t) : R s t
  stable : Stable (Acts []) T
  beginIf (pos : Position) : Does R T (Asm.beginIf pos) (fun _ => T)
  elseIf (pos : Position) : Does R T (Asm.elseIf pos) (fun _ => T)
  elsePart (pos : Position) : Does R T (Asm.elsePart pos) (fun _ => T)
  endIf (pos : Position) : Does R T (Asm.endIf pos) (fun _ => T)
  beginDo (pos : Position) : Does R T (Asm.beginDo pos) (fun _ => T)
  whileTest (pos : Position) : Does R T (Asm.whileTest pos) (fun _ => T)
  endLoop (pos : Position) : Does R T (Asm.endLoop pos) (fun _ => T)
  record {s t : Assembler} (e : Error) (sound : s.Sound) (h : T s) (walk : R s t) : T (t.record e)
  begin {s : Assembler} (h : T s) : R s { s with start := s.here } ∧ T { s with start := s.here }
  list {s : Assembler} (listing : Listing) (h : T s) : R s { s with listing } ∧ T { s with listing }
  stop {s : Assembler} (failed : s.diagnostics.isEmpty = false) (h : T s) :
    R s { s with fatal := true } ∧ T { s with fatal := true }

theorem does_switchTo (space : Space) : Plain (Asm.switchTo space) :=
  .modify fun _ _ _ => ⟨.single (.switch space), trivial⟩

namespace Upkeep

variable {R : Assembler → Assembler → Prop} {T : Assembler → Prop}

theorem acting (keep : Upkeep R T) {α : Type} {x : Asm α} {P : Assembler → Prop} {Q : α → Assembler → Prop}
    (h : Does (Acts []) P x Q) : Does R (fun s => P s ∧ T s) x (fun _ => T) :=
  ((h.frame keep.stable).along keep.acts).post fun _ _ h => h.2

theorem plain (keep : Upkeep R T) {α : Type} {x : Asm α} (h : Plain x) : Does R T x (fun _ => T) :=
  (keep.acting h).pre fun _ _ hT => ⟨trivial, hT⟩

variable [Walk R] (keep : Upkeep R T)

include keep

theorem thenEnd {work : Asm Unit} (h : Does R T work (fun _ => T)) : Does R T (Asm.thenEnd work) (fun _ => T) :=
  h.bind fun _ => keep.plain does_endOfStatement

/-- Every directive keeps what is kept between statements. -/
theorem directive (k : Keyword) (pos : Position) : Does R T (Asm.directive k pos) (fun _ => T) := by
  cases k with
  | codeSpace => exact keep.thenEnd (keep.plain (does_switchTo .code))
  | dataSpace => exact keep.thenEnd (keep.plain (does_switchTo .data))
  | zeroPageSpace => exact keep.thenEnd (keep.plain (does_switchTo .zeroPage))
  | bytes => exact keep.thenEnd (keep.plain (.first does_budget fun n => does_bytesWithin n))
  | words => exact keep.thenEnd (keep.plain (.first does_budget fun n => does_wordsWithin n))
  | reserve => exact keep.thenEnd (keep.plain (does_reserve pos))
  | declarePublic => exact keep.thenEnd (keep.plain (.first does_budget fun n => does_declareWithin true n))
  | declareExternal => exact keep.thenEnd (keep.plain (.first does_budget fun n => does_declareWithin false n))
  | includeFile => exact keep.plain (does_includeFile pos)
  | endSource => exact keep.plain (.first does_endOfStatement fun _ => .pure fun _ _ _ => trivial)
  | ifBlock => exact keep.thenEnd (keep.beginIf pos)
  | elseIf => exact keep.thenEnd (keep.elseIf pos)
  | elsePart => exact keep.thenEnd (keep.elsePart pos)
  | endIf => exact keep.thenEnd (keep.endIf pos)
  | doBlock => exact keep.thenEnd (keep.beginDo pos)
  | whileTest => exact keep.whileTest pos
  | loopEnd => exact keep.thenEnd (keep.endLoop pos)
  | equate => exact .fail _ _

/-- So does a statement: behind its labels it is empty, or a directive, an instruction or a definition. -/
theorem statementWithin (n : Nat) (token : Token) :
    Does R (fun s => s.AtStart ∧ T s) (Asm.statementWithin n token) (fun _ => T) := by
  induction n generalizing token with
  | zero => exact .fail _ _
  | succ n ih =>
    rw [Asm.statementWithin]
    split
    · exact (keep.directive _ _).pre fun _ _ h => h.2
    · rename_i name _
      refine .atState fun s _ ⟨atStart, kept⟩ => ?_
      refine ((keep.plain does_nextToken).fromState kept).bindFrom fun after t run _ kept => ?_
      have atStart := (stays_nextToken run).atStart atStart
      split
      · refine ((keep.plain (does_placeName token.pos name)).fromState kept).bindFrom fun _ u run _ kept => ?_
        have atStart := (stays_placeName token.pos run).atStart atStart
        refine ((keep.plain does_nextToken).fromState kept).bindFrom fun next v run _ kept => ?_
        split
        · exact (keep.plain (.first (does_unread next) fun _ => does_endOfStatement)).fromState kept
        · exact (ih next).fromState ⟨(stays_nextToken run).atStart atStart, kept⟩
      · split
        · have equated := keep.acting (does_equate token.pos name)
          exact (equated.fromState ⟨atStart, kept⟩).bind fun _ => keep.plain does_endOfStatement
        · refine ((keep.plain (does_unread after)).fromState kept).bind fun _ => .getThen fun s _ kept => ?_
          split
          · exact (keep.thenEnd (keep.plain (does_instruction _ token.pos))).fromState kept
          · exact .fail _ _
    · exact .fail _ _

theorem statement (token : Token) : Does R (fun s => s.AtStart ∧ T s) (Asm.statement token) (fun _ => T) :=
  .getThen fun _ _ h => (keep.statementWithin _ token).fromState h

theorem recorded (e : Error) (sound : s.Sound) (kept : T s) (walk : R s t) : R s (t.record e) ∧ T (t.record e) :=
  ⟨Walk.trans walk (keep.acts (sound.steps (Walk.steps walk)) (.single (.report e))), keep.record e sound kept walk⟩

theorem skipLine (sound : s.Sound) (h : R s t ∧ T t) : R s t.skipLine ∧ T t.skipLine := by
  have skip : Acts [] t t.skipLine := acts_read t _ t.lineEnded
  have sound' := sound.steps (Walk.steps h.1)
  exact ⟨Walk.trans h.1 (keep.acts sound' skip), keep.stable t _ sound' skip h.2⟩

theorem listStatement (h : R s t ∧ T t) (pos : Position) (space : Space) (start : Nat) :
    R s (t.listStatement pos space start) ∧ T (t.listStatement pos space start) :=
  (keep.list _ h.2).imp_left (Walk.trans h.1)

/-- A statement keeps it also where it fails, after its error has been recorded. -/
theorem oneStatement (sound : s.Sound) (kept : T s) (first : Token) :
    R s (s.oneStatement first).1 ∧ T (s.oneStatement first).1 := by
  obtain ⟨begun, kept'⟩ := keep.begin kept
  obtain ⟨ok, error⟩ := keep.statement first _ (sound.steps (Walk.steps begun)) ⟨rfl, kept'⟩
  unfold Assembler.oneStatement
  dsimp only
  split
  · rename_i flow t run
    obtain ⟨walk, still⟩ := ok flow t run
    exact keep.listStatement ⟨Walk.trans begun walk, still⟩ _ _ _
  · rename_i e t run
    have failed := keep.recorded e sound kept (Walk.trans begun (error e t run))
    split
    · exact (keep.stop (Diagnostics.isEmpty_record _ _) failed.2).imp_left (Walk.trans failed.1)
    · split
      · exact keep.listStatement failed _ _ _
      · exact keep.listStatement (keep.skipLine sound failed) _ _ _

/-- What is kept by each statement is kept by any number of lines. -/
theorem statements (n : Nat) (sound : s.Sound) (kept : T s) : R s (statements n s) ∧ T (statements n s) := by
  induction n generalizing s with
  | zero => exact ⟨Walk.refl s, kept⟩
  | succ n ih =>
    -- every line leads to a state from which the rest goes on
    have next {t : Assembler} (h : R s t ∧ T t) : R s (Assembler.statements n t) ∧ T (Assembler.statements n t) :=
      (ih (sound.steps (Walk.steps h.1)) h.2).imp_left (Walk.trans h.1)
    obtain ⟨ok, error⟩ := keep.plain does_nextToken s sound kept
    rw [Assembler.statements]
    split
    · exact ⟨Walk.refl s, kept⟩
    · split
      · rename_i e t run
        exact next (keep.skipLine sound (keep.recorded e sound kept (error e t run)))
      · rename_i first t run
        obtain ⟨walk, still⟩ := ok first t run
        split
        · exact ⟨walk, still⟩
        · exact next ⟨walk, still⟩
        · have one := (keep.oneStatement (sound.steps (Walk.steps walk)) still first).imp_left (Walk.trans walk)
          split
          · rename_i u same
            rw [same] at one
            exact next one
          · rename_i u same
            rw [same] at one
            exact one

end Upkeep

/-- A state reached within a pass. -/
structure Reaches (s t : Assembler) : Prop where
  steps : Steps s t
  tidy : t.Tidy

theorem Reaches.trans {u : Assembler} (h : Reaches s t) (k : Reaches t u) : Reaches s u :=
  ⟨h.steps.trans k.steps, k.tidy⟩

theorem tidy_of_failed (failed : s.diagnostics.isEmpty = false) : s.Tidy := Kept.of_failed failed

theorem step_record (s : Assembler) (e : Error) : Step s (s.record e) := .act (.report e : Action [] s _)

/-- An error that is recorded makes up for what was left unknown. -/
theorem upkeep_tidy : Upkeep Steps Tidy where
  acts _ h := h.steps
  stable := stable_tidy
  beginIf := does_beginIf
  elseIf := does_elseIf
  elsePart := does_elsePart
  endIf := does_endIf
  beginDo := does_beginDo
  whileTest := does_whileTest
  endLoop := does_endLoop
  record _ _ _ _ := tidy_of_failed (Diagnostics.isEmpty_record _ _)
  begin tidy := ⟨.single .begin, tidy⟩
  list _ tidy := ⟨.single (.list _), tidy⟩
  stop failed tidy := ⟨.single (.stop failed), tidy⟩

theorem Reaches.record {e : Error} (h : Steps s t) : Reaches s (t.record e) :=
  ⟨h.tail (step_record t e), tidy_of_failed (Diagnostics.isEmpty_record _ _)⟩

theorem Reaches.skipLine (h : Reaches s t) (sound : s.Sound) : Reaches s t.skipLine :=
  have skipped := upkeep_tidy.skipLine sound ⟨h.steps, h.tidy⟩
  ⟨skipped.1, skipped.2⟩

theorem reaches_oneStatement (sound : s.Sound) (tidy : s.Tidy) (first : Token) :
    Reaches s (s.oneStatement first).1 :=
  have done := upkeep_tidy.oneStatement sound tidy first
  ⟨done.1, done.2⟩

theorem reaches_statements (n : Nat) (sound : s.Sound) (tidy : s.Tidy) : Reaches s (statements n s) :=
  have done := upkeep_tidy.statements n sound tidy
  ⟨done.1, done.2⟩

theorem steps_foldl {α : Type} {f : Assembler → α → Assembler} {l : List α}
    (h : ∀ s : Assembler, s.Sound → ∀ a ∈ l, Steps s (f s a)) (sound : s.Sound) : Steps s (l.foldl f s) := by
  induction l generalizing s with
  | nil => exact .refl
  | cons a rest ih =>
    have first := h s sound a (List.mem_cons_self ..)
    exact first.trans (ih (fun s sound b hb => h s sound b (List.mem_cons_of_mem _ hb)) (sound.steps first))

/-- If errors were recorded one after another and there is none, there were none. -/
theorem eq_nil_of_foldl_record {α : Type} {e : α → Error} {l : List α}
    (clean : (l.foldl (fun s a => s.record (e a)) s).diagnostics.isEmpty = true) : l = [] := by
  obtain rfl | ⟨rest, last, rfl⟩ := List.eq_nil_or_concat l
  · rfl
  · rw [List.concat_eq_append, List.foldl_append] at clean
    simp at clean

/-- Closing a block that was left open is an error. -/
theorem steps_closeOpen (sound : s.Sound) {b : Block} (high : ∀ id ∈ b.labels, autoLabelBase ≤ id.toNat)
    (pos : Position) : Steps s (s.closeOpen b pos) ∧ (s.closeOpen b pos).diagnostics.isEmpty = false := by
  have report := step_record s (.at_ (.blockNotClosed b.opener.name) pos)
  have failed := Diagnostics.isEmpty_record s.diagnostics (.at_ (.blockNotClosed b.opener.name) pos)
  have place : Does Steps (Within s.blocks (b.pending ++ [])) (Asm.placeLabels pos b.pending) _ :=
    does_placeLabels pos b.pending fun id h => high id (b.pending_subset_labels h)
  obtain ⟨ok, error⟩ := place _ (sound.step report) ⟨rfl, .of_failed failed⟩
  unfold closeOpen
  dsimp only
  split
  · rename_i t run
    have steps := (ok () t run).1
    exact ⟨.head report steps, steps.grows.diagnostics failed⟩
  · rename_i e t run
    have steps := Relation.ReflTransGen.head report (error e t run)
    exact ⟨steps.tail (step_record t e), Diagnostics.isEmpty_record _ _⟩

theorem step_closing (sound : s.Sound) : Step s { s with blocks := [] } := .blocks [] (.nil sound.nested.base)

/-- The labels of blocks left open have the numbers of labels. -/
theorem high_of_mem_blocks (sound : s.Sound) {b : Block × Position} (mem : b ∈ s.blocks) :
    ∀ id ∈ b.1.labels, autoLabelBase ≤ id.toNat :=
  fun id h => (sound.nested.range id (List.mem_flatMap.2 ⟨b, mem, h⟩)).1

theorem steps_closeAll (sound : s.Sound) : Steps s s.closeAll := by
  refine .head (step_closing sound) (steps_foldl (fun t sound' b mem => ?_) (sound.step (step_closing sound)))
  exact (steps_closeOpen sound' (high_of_mem_blocks sound mem) b.2).1

/-- Without errors no block was left open. -/
theorem closeAll_eq (sound : s.Sound) (clean : s.closeAll.diagnostics.isEmpty = true) :
    s.blocks = [] ∧ s.closeAll = s := by
  cases open? : s.blocks with
  | nil =>
    refine ⟨rfl, ?_⟩
    unfold closeAll
    rw [open?, List.foldl_nil, ← open?]
  | cons b rest =>
    have high {c : Block × Position} (mem : c ∈ b :: rest) := high_of_mem_blocks sound (open? ▸ mem)
    obtain ⟨first, failed⟩ := steps_closeOpen (sound.step (step_closing sound)) (high (List.mem_cons_self ..)) b.2
    have later := steps_foldl (l := rest) (f := fun s b => s.closeOpen b.1 b.2)
      (fun t sound' c mem => (steps_closeOpen sound' (high (List.mem_cons_of_mem _ mem)) c.2).1)
      ((sound.step (step_closing sound)).steps first)
    unfold closeAll at clean
    rw [open?, List.foldl_cons] at clean
    rw [later.grows.isEmpty_eq_true clean] at failed
    cases failed

theorem endPass_eq (s : Assembler) :
    s.endPass = if s.closeAll.pass < 2 then s.closeAll
      else (s.closeAll.symbols.toList.filter fun sym => sym.isPublic && sym.address.isUndefined).foldl
        (fun s sym => s.record ⟨.publicUndefined sym.name, none⟩) s.closeAll := rfl

theorem steps_endPass (sound : s.Sound) : Steps s s.endPass := by
  have closed := steps_closeAll sound
  rw [endPass_eq]
  split
  · exact closed
  · exact closed.trans (steps_foldl (fun t _ _ _ => .single (step_record t _)) (sound.steps closed))

/-- The end of a pass without errors changes nothing. -/
theorem endPass_eq_self (sound : s.Sound) (clean : s.endPass.diagnostics.isEmpty = true) :
    s.blocks = [] ∧ s.endPass = s := by
  rw [endPass_eq] at clean ⊢
  split at clean
  · rename_i first
    rw [if_pos first]
    exact closeAll_eq sound clean
  · rename_i later
    rw [if_neg later]
    have none := eq_nil_of_foldl_record clean
    rw [none] at clean ⊢
    exact closeAll_eq sound clean

/-- After the first pass, a public symbol without a value is an error. -/
theorem isUndefined_eq_false_of_endPass (sound : s.Sound) (later : 2 ≤ s.endPass.pass)
    (clean : s.endPass.diagnostics.isEmpty = true) {sym : Symbol} (mem : sym ∈ s.endPass.symbols.toList)
    (isPublic : sym.isPublic = true) : sym.address.isUndefined = false := by
  rw [(endPass_eq_self sound clean).2] at later mem
  rw [endPass_eq] at clean
  split at clean
  · rename_i first
    rw [(closeAll_eq sound clean).2] at first
    omega
  · have none := eq_nil_of_foldl_record clean
    rw [none] at clean
    rw [(closeAll_eq sound clean).2, List.filter_eq_nil_iff] at none
    simpa [isPublic] using none sym mem

/-- The state that a pass starts from. -/
def begun (s : Assembler) (root : Nat) : Assembler :=
  (note { s with pass := s.pass + 1 } (.pass (s.pass + 1))).beginPass root

theorem Sound.begun (sound : s.Sound) (root : Nat) : (s.begun root).Sound :=
  ⟨sound.start, sound.numbered, sound.symbols, .nil (Nat.le_refl _)⟩

/-- The state in which all statements of a pass are done. -/
def laidOut (s : Assembler) (root : Nat) : Assembler := statements (s.begun root).lineBudget (s.begun root)

theorem onePass_eq (s : Assembler) (root : Nat) : s.onePass root = (s.laidOut root).endPass := rfl

theorem tidy_begun (s : Assembler) (root : Nat) : (s.begun root).Tidy := by
  rintro _ ⟨e, mem, -⟩
  cases mem

theorem reaches_laidOut (sound : s.Sound) (root : Nat) : Reaches (s.begun root) (s.laidOut root) :=
  reaches_statements _ (sound.begun root) (tidy_begun s root)

theorem steps_onePass (sound : s.Sound) (root : Nat) : Steps (s.begun root) (s.onePass root) := by
  have reaches := reaches_laidOut sound root
  exact reaches.steps.trans (steps_endPass ((sound.begun root).steps reaches.steps))

/-- A pass from `b` to `t` that ends a run: without errors, with nothing moved, and not the first. -/
structure FinalPass (b t : Assembler) : Prop where
  sound : b.Sound
  trace : b.trace = []
  uses : b.uses = ∅
  reaches : Reaches b t
  blocks : t.blocks = []
  later : 2 ≤ t.pass
  still : t.moved = false
  clean : t.diagnostics.isEmpty = true

/-- A pass that ends the first run of an assembler: all symbols are from earlier passes. -/
structure LastPass (b t : Assembler) : Prop extends FinalPass b t where
  dated : ∀ id sym, b.symbols.get? id = some sym → sym.pass < b.pass

theorem finalPass_onePass {root : Nat} (sound : s.Sound) (later : 2 ≤ (s.onePass root).pass)
    (still : (s.onePass root).moved = false) (clean : (s.onePass root).diagnostics.isEmpty = true) :
    FinalPass (s.begun root) (s.onePass root) := by
  have reaches := reaches_laidOut sound root
  obtain ⟨blocks, same⟩ := endPass_eq_self ((sound.begun root).steps reaches.steps) clean
  rw [onePass_eq, same] at later still clean ⊢
  exact ⟨sound.begun root, rfl, rfl, reaches, blocks, later, still, clean⟩

/-- A pass that stops a run has an error. -/
theorem isEmpty_eq_false_of_fatal {root : Nat} (sound : s.Sound)
    (stopped : s.fatal = true → s.diagnostics.isEmpty = false) (fatal : (s.onePass root).fatal = true) :
    (s.onePass root).diagnostics.isEmpty = false := by
  have grows := (steps_onePass sound root).grows
  obtain before | failed := grows.fatal fatal
  · exact grows.diagnostics (stopped before)
  · exact failed

theorem passes_eq (root more : Nat) (s : Assembler) :
    passes root more s =
      let t := s.onePass root
      if t.fatal || t.diagnostics.size > maxErrors then t
      else if t.pass ≥ 2 && !t.moved then t
      else match more with
        | 0 => t.record ⟨.notConverged t.pass, none⟩
        | more + 1 => passes root more t := by
  cases more <;> rfl

/-- The state after a number of passes. -/
def afterPasses (root : Nat) (s : Assembler) : Nat → Assembler
  | 0 => s
  | n + 1 => (afterPasses root s n).onePass root

theorem afterPasses_onePass (root n : Nat) (s : Assembler) :
    afterPasses root (s.onePass root) n = afterPasses root s (n + 1) := by
  induction n with
  | zero => rfl
  | succ n ih =>
    rw [afterPasses, ih]
    rfl

theorem Sound.afterPasses (sound : s.Sound) (root n : Nat) : (afterPasses root s n).Sound := by
  induction n with
  | zero => exact sound
  | succ n ih => exact (ih.begun root).steps (steps_onePass ih root)

theorem pass_afterPasses (sound : s.Sound) (root n : Nat) : (afterPasses root s n).pass = s.pass + n := by
  induction n with
  | zero => rfl
  | succ n ih =>
    have begun : ((afterPasses root s n).begun root).pass = (afterPasses root s n).pass + 1 := rfl
    rw [afterPasses, (steps_onePass (sound.afterPasses root n) root).grows.pass, begun, ih, Nat.add_assoc]

theorem dated_afterPasses (sound : s.Sound) (dated : s.symbols.Dated s.pass) (root n : Nat) :
    (afterPasses root s n).symbols.Dated (afterPasses root s n).pass := by
  induction n with
  | zero => exact dated
  | succ n ih => exact (steps_onePass (sound.afterPasses root n) root).dated (ih.mono (Nat.le_succ _))

/-- Passes without errors end with a final pass. -/
theorem exists_finalPass_of_passes (root more : Nat) {s : Assembler} (sound : s.Sound)
    (stopped : s.fatal = true → s.diagnostics.isEmpty = false)
    (clean : (passes root more s).diagnostics.isEmpty = true) :
    ∃ n, passes root more s = afterPasses root s (n + 1)
      ∧ FinalPass ((afterPasses root s n).begun root) (afterPasses root s (n + 1)) := by
  have failed : (s.onePass root).fatal = true → (s.onePass root).diagnostics.isEmpty = false :=
    isEmpty_eq_false_of_fatal sound stopped
  rw [passes_eq] at clean ⊢
  dsimp only at clean ⊢
  split at clean
  · -- what stops a run early leaves an error
    rename_i stop
    have size : (s.onePass root).diagnostics.size = 0 := by simpa [Diagnostics.isEmpty] using clean
    simp_all
  · rename_i goesOn
    rw [if_neg goesOn]
    split at clean
    · rename_i settled
      rw [if_pos settled]
      rw [Bool.and_eq_true, decide_eq_true_eq, Bool.not_eq_true'] at settled
      exact ⟨0, rfl, finalPass_onePass sound settled.1 settled.2 clean⟩
    · rename_i unsettled
      rw [if_neg unsettled]
      cases more with
      | zero => simp at clean
      | succ more =>
        have after := (sound.begun root).steps (steps_onePass sound root)
        obtain ⟨n, same, final⟩ := exists_finalPass_of_passes root more after failed clean
        rw [afterPasses_onePass] at same
        rw [afterPasses_onePass, afterPasses_onePass] at final
        exact ⟨n + 1, same, final⟩
termination_by more

/-- An assembler that has not run yet; files may have been added. -/
def IsNew (s : Assembler) : Prop := s = { new s.cpu s.options s.disk with files := s.files, notes := s.notes }

theorem isNew_new (cpu : Cpu) (options : Options) (disk : Disk) : (new cpu options disk).IsNew := rfl

theorem IsNew.addSource (h : s.IsNew) (name text : String) : (s.addSource name text).2.IsNew := by
  unfold IsNew at h ⊢
  rw [h]
  rfl

/-- An assembler with one source text. -/
def ofText (text : String) : Assembler := ((new .mos6502 {} {}).addSource "main.asm" text).2

theorem isNew_ofText (text : String) : (ofText text).IsNew := (isNew_new _ _ _).addSource _ _

theorem IsNew.prepared (h : s.IsNew) : s.prepared.Sound ∧ s.prepared.fatal = false := by
  rw [h]
  exact ⟨⟨⟨.code, 0, rfl⟩, IdentifierTable.numbered_empty, SymbolTable.matches_empty _, .nil (Nat.le_refl _)⟩, rfl⟩

theorem IsNew.dated (h : s.IsNew) : s.prepared.symbols.Dated s.prepared.pass := by
  rw [h]
  exact SymbolTable.dated_empty _

/-- A run succeeds if its passes leave no error, and gives what the last one laid out. -/
structure Concludes (s : Assembler) (asm : Assembly) (t : Assembler) : Prop where
  clean : s.diagnostics.isEmpty = true
  provisional : s.provisional = #[]
  object : asm.object = s.toObject
  passes : asm.passes = s.pass
  trace : t.trace = s.trace
  lastReachLog : t.lastReachLog = s.lastReachLog
  files : t.files = s.files
  rows : asm.listing.rows = s.listing.rows

theorem concludes_of_conclude {asm : Assembly} (h : s.conclude = (.ok asm, t)) : Concludes s asm t := by
  unfold conclude at h
  dsimp only at h
  split at h
  · rename_i clean
    rw [← Array.foldl_toList] at clean h
    have none := eq_nil_of_foldl_record (e := id) clean
    rw [none] at clean h
    cases h
    exact ⟨clean, Array.toList_eq_nil_iff.1 none, rfl, rfl, rfl, rfl, rfl, rfl⟩
  · cases h

/-- The passes of a run that succeeds. -/
theorem exists_passes (h : s.IsNew) {root : Nat} {asm : Assembly} (run : s.run root = (.ok asm, t)) :
    ∃ n, LastPass ((afterPasses root s.prepared n).begun root) (afterPasses root s.prepared (n + 1))
      ∧ Concludes (afterPasses root s.prepared (n + 1)) asm t := by
  obtain ⟨sound, notStopped⟩ := h.prepared
  have concludes := concludes_of_conclude run
  obtain ⟨n, same, final⟩ := exists_finalPass_of_passes root _ sound (by simp [notStopped]) concludes.clean
  have dated := dated_afterPasses sound h.dated root n
  exact ⟨n, ⟨final, fun id sym found => Nat.lt_succ_of_le (dated id sym found)⟩, same ▸ concludes⟩

/-- A run that succeeds ends with a last pass. -/
theorem exists_lastPass (h : s.IsNew) {root : Nat} {asm : Assembly} (run : s.run root = (.ok asm, t)) :
    ∃ b u, LastPass b u ∧ Concludes u asm t := by
  obtain ⟨n, last, concludes⟩ := exists_passes h run
  exact ⟨_, _, last, concludes⟩

end Asm65.Assembler
