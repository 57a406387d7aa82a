import Asm65.Proofs.SameSource

/-!
# The names that a run gives

Two passes of a run that go through the same lines give the same names in the same order, as far as both go. A name
is given once in a pass, so none is declared in one pass and defined in another: at the end of the run each external
value refers to a symbol that is itself external.
-/

namespace Asm65
set_option autoImplicit false

/-- How a pass goes on after a line without a statement. -/
def Lexeme.lineEnd? : Lexeme → Option Flow
  | .endOfFile => some .stop
  | .endOfLine => some .goOn
  | _ => none

namespace Assembler

section Lines

variable {given last : SourceTable} {s s' t t' : Assembler} {flow flow' : Flow}

/-- A line of a pass without errors. -/
inductive Line (s : Assembler) : Flow → Assembler → Prop where
  | ends {token : Token} {t : Assembler} {flow : Flow} (read : Asm.nextToken s = .ok token t)
      (line : token.lexeme.lineEnd? = some flow) : Line s flow t
  | statement {token : Token} {t u : Assembler} {flow : Flow} (read : Asm.nextToken s = .ok token t)
      (line : token.lexeme.lineEnd? = none) (run : Asm.statement token { t with start := t.here } = .ok flow u) :
      Line s flow (u.listStatement token.pos t.current (t.segment t.current).size)

/-- The same line in two passes. -/
theorem Line.level (one : given.NamesOneFile last) (abreast : Abreast s s') (line : Line s flow t)
    (line' : Line s' flow' t') (before : given.Within s.files) (before' : given.Within s'.files)
    (after : t.files.Within last) (after' : t'.files.Within last) : flow = flow' ∧ Level t t' := by
  cases line with
  | ends read line =>
    cases line' with
    | ends read' line' =>
      obtain ⟨abreast, rfl⟩ := twin_nextToken abreast read read'
      cases line.symm.trans line'
      exact ⟨rfl, .inl abreast⟩
    | statement read' line' =>
      obtain ⟨-, rfl⟩ := twin_nextToken abreast read read'
      cases line.symm.trans line'
  | @statement token u v flow read line run =>
    cases line' with
    | ends read' line' =>
      obtain ⟨-, rfl⟩ := twin_nextToken abreast read read'
      cases line.symm.trans line'
    | @statement _ u' v' flow' read' line' run' =>
      obtain ⟨abreast, rfl⟩ := twin_nextToken abreast read read'
      rw [← (stays_nextToken read).files] at before
      rw [← (stays_nextToken read').files] at before'
      have abreast : Abreast { u with start := u.here } { u' with start := u'.here } := ⟨abreast.tokens, abreast.given⟩
      obtain ⟨rfl, level⟩ := turns_statement one token abreast before before' run run' after after'
      exact ⟨rfl, level.congr ⟨rfl, rfl⟩ ⟨rfl, rfl⟩⟩

/-- The end of a loop as a statement. -/
theorem of_statement_loopEnd {token : Token} (loopEnd : token.lexeme = .keyword .loopEnd)
    (run : Asm.statement token s = .ok flow t) : ∃ u, Abreast s u ∧ Asm.endOfStatement u = .ok flow t := by
  obtain ⟨n, _, got, run⟩ := exists_of_bind_eq_ok run
  cases got
  cases budget : s.tokens.budget with
  | zero =>
    rw [budget] at run
    cases run
  | succ n =>
    rw [budget, Asm.statementWithin, loopEnd] at run
    obtain ⟨_, u, closed, ends⟩ := exists_of_bind_eq_ok run
    exact ⟨u, still_endLoop token.pos closed, ends⟩

/-- The pass that is behind reads the end of the loop next. -/
theorem Ahead.next {token : Token} (ahead : Ahead s s') (read : Asm.nextToken s' = .ok token t) :
    token.lexeme = .keyword .loopEnd ∧ ∃ u v flow, Abreast u t ∧ Asm.endOfStatement u = .ok flow v ∧ Abreast v s := by
  obtain ⟨token', u, v, flow, found, loopEnd, names, ends, abreast⟩ := ahead.reads
  obtain ⟨found', names'⟩ := eq_of_nextToken read
  injection found.symm.trans found' with same tokens
  cases same
  exact ⟨loopEnd, u, v, flow, ⟨tokens, names.trans names'.symm⟩, ends, abreast⟩

/-- With that line it is abreast. -/
theorem Line.catchUp (ahead : Ahead s s') (line : Line s' flow t) : flow = .goOn ∧ Abreast s t := by
  cases line with
  | ends read line =>
    rw [(ahead.next read).1] at line
    cases line
  | @statement token u v flow read line run =>
    obtain ⟨loopEnd, x, y, flow', level, ends, abreast⟩ := ahead.next read
    obtain ⟨z, still, ends'⟩ := of_statement_loopEnd loopEnd run
    have level : Abreast x z := level.trans ⟨still.tokens, still.given⟩
    obtain ⟨ended, -⟩ := twin_endOfStatement level ends ends'
    exact ⟨(of_endOfStatement ends').1, (abreast.symm.trans ended).trans ⟨rfl, rfl⟩⟩

/-- A statement that leaves no error is done. -/
theorem of_oneStatement {first : Token} (clean : (s.oneStatement first).1.diagnostics.isEmpty = true) :
    ∃ flow t, Asm.statement first { s with start := s.here } = .ok flow t
      ∧ s.oneStatement first = (t.listStatement first.pos s.current (s.segment s.current).size, flow) := by
  unfold oneStatement at clean ⊢
  dsimp only at clean ⊢
  cases run : Asm.statement first { s with start := s.here } with
  | ok flow t => exact ⟨flow, t, rfl, rfl⟩
  | error e t =>
    rw [run] at clean
    dsimp only at clean
    split at clean
    · simp at clean
    · split at clean
      · cases (isEmpty_diagnostics_record t e).symm.trans clean
      · cases (isEmpty_diagnostics_record t e).symm.trans clean

theorem isEmpty_of_statements {n : Nat} (sound : s.Sound) (h : Reaches s t)
    (clean : (statements n t).diagnostics.isEmpty = true) : t.diagnostics.isEmpty = true :=
  (reaches_statements n (sound.steps h.steps) h.tidy).steps.grows.isEmpty_eq_true clean

/-- Statements that leave no error have a first token. -/
theorem exists_nextToken {n : Nat} (sound : s.Sound) (tidy : s.Tidy)
    (clean : (statements (n + 1) s).diagnostics.isEmpty = true) :
    ¬ s.diagnostics.size > maxErrors ∧ ∃ first t, Asm.nextToken s = .ok first t := by
  rw [statements] at clean
  split at clean
  · rename_i full
    have none : s.diagnostics.size = 0 := by simpa [Diagnostics.isEmpty] using clean
    omega
  · rename_i room
    refine ⟨room, ?_⟩
    cases read : Asm.nextToken s with
    | ok first t => exact ⟨first, t, rfl⟩
    | error e t =>
      rw [read] at clean
      have steps := (does_nextToken.tidy s sound tidy).2 e t read
      have failed : Reaches s (t.record e).skipLine := Reaches.skipLine (.record steps) sound
      have none := isEmpty_of_statements sound failed clean
      cases (isEmpty_diagnostics_record t e).symm.trans none

/-- What follows a line, at most `n` more. -/
def proceed (n : Nat) (s : Assembler) : Flow → Assembler
  | .goOn => statements n s
  | .stop => s

theorem statements_of_ends {n : Nat} {first : Token} (room : ¬ s.diagnostics.size > maxErrors)
    (read : Asm.nextToken s = .ok first t) (line : first.lexeme.lineEnd? = some flow) :
    statements (n + 1) s = t.proceed n flow := by
  rw [statements, if_neg room, read]
  cases which : first.lexeme <;> rw [which] at line <;> cases line <;> simp only [which] <;> rfl

theorem statements_of_statement {n : Nat} {first : Token} (room : ¬ s.diagnostics.size > maxErrors)
    (read : Asm.nextToken s = .ok first t) (line : first.lexeme.lineEnd? = none) :
    statements (n + 1) s = (t.oneStatement first).1.proceed n (t.oneStatement first).2 := by
  rw [statements, if_neg room, read]
  rcases one : t.oneStatement first with ⟨u, _ | _⟩ <;>
    cases which : first.lexeme <;> rw [which] at line <;> cases line <;> simp only [which, one] <;> rfl

/-- Statements that leave no error start with a line of that kind. -/
theorem of_statements {n : Nat} (sound : s.Sound) (tidy : s.Tidy)
    (clean : (statements (n + 1) s).diagnostics.isEmpty = true) :
    ∃ flow t, Line s flow t ∧ Reaches s t ∧ statements (n + 1) s = t.proceed n flow := by
  obtain ⟨room, first, t, read⟩ := exists_nextToken sound tidy clean
  obtain ⟨steps, still⟩ := (does_nextToken.tidy s sound tidy).1 first t read
  cases line : first.lexeme.lineEnd? with
  | some flow => exact ⟨flow, t, .ends read line, ⟨steps, still⟩, statements_of_ends room read line⟩
  | none =>
    have result := statements_of_statement (n := n) room read line
    have one : Reaches s (t.oneStatement first).1 :=
      Reaches.trans ⟨steps, still⟩ (reaches_oneStatement (sound.steps steps) still first)
    have done : (t.oneStatement first).1.diagnostics.isEmpty = true := by
      rw [result] at clean
      cases flow : (t.oneStatement first).2 with
      | goOn =>
        rw [flow] at clean
        exact isEmpty_of_statements sound one clean
      | stop =>
        rw [flow] at clean
        exact clean
    obtain ⟨flow, u, run, same⟩ := of_oneStatement done
    rw [same] at one result
    exact ⟨flow, _, .statement read line run, one, result⟩

/-- The pass goes on after `n` lines. -/
inductive Exhausts : Nat → Assembler → Prop where
  | zero {s : Assembler} : Exhausts 0 s
  | line {n : Nat} {s t : Assembler} (line : Line s .goOn t) (rest : Exhausts n t) : Exhausts (n + 1) s

/-- The rest of a pass without errors, at most `n` lines of it, in a run from the files `given` to the files `last`. -/
structure Going (given last : SourceTable) (n : Nat) (s : Assembler) : Prop where
  sound : s.Sound
  tidy : s.Tidy
  clean : (statements n s).diagnostics.isEmpty = true
  before : given.Within s.files
  after : (statements n s).files.Within last

namespace Going

variable {n : Nat}

theorem grows (going : Going given last n s) : Grows s (statements n s) :=
  (reaches_statements n going.sound going.tidy).steps.grows

theorem next (going : Going given last (n + 1) s) :
    ∃ flow t, Line s flow t ∧ t.files.Within last ∧ statements (n + 1) s = t.proceed n flow
      ∧ (flow = .goOn → Going given last n t) := by
  obtain ⟨flow, t, line, reaches, same⟩ := of_statements going.sound going.tidy going.clean
  have clean := going.clean
  have after := going.after
  rw [same] at clean after
  cases flow with
  | goOn =>
    have rest : Going given last n t :=
      ⟨going.sound.steps reaches.steps, reaches.tidy, clean, going.before.trans reaches.steps.grows.files, after⟩
    exact ⟨.goOn, t, line, rest.grows.files.trans after, same, fun _ => rest⟩
  | stop => exact ⟨.stop, t, line, after, same, fun goOn => nomatch goOn⟩

/-- Two passes give the same names, unless one of them reaches its limit on lines before the other one ends. -/
theorem given_eq_or {n n' : Nat} {s s' : Assembler} (one : given.NamesOneFile last) (level : Level s s')
    (going : Going given last n s) (going' : Going given last n' s') :
    (statements n s).given = (statements n' s').given
      ∨ Exhausts n s ∧ (statements n s).given <:+ (statements n' s').given
      ∨ Exhausts n' s' ∧ (statements n' s').given <:+ (statements n s).given := by
  cases n with
  | zero => exact .inr (.inl ⟨.zero, level.given_eq ▸ given_suffix going'.grows⟩)
  | succ n =>
    cases n' with
    | zero => exact .inr (.inr ⟨.zero, level.given_eq ▸ given_suffix going.grows⟩)
    | succ n' =>
      obtain ⟨flow, t, line, after, same, rest⟩ := going.next
      obtain ⟨flow', t', line', after', same', rest'⟩ := going'.next
      obtain abreast | ahead | behind := level
      · obtain ⟨rfl, level⟩ := line.level one abreast line' going.before going'.before after after'
        rw [same, same']
        cases flow with
        | goOn =>
          have later := given_eq_or one level (rest rfl) (rest' rfl)
          exact later.imp_right (.imp (.imp_left (.line line)) (.imp_left (.line line')))
        | stop => exact .inl level.given_eq
      · -- the second pass reads the end of the loop, the first one waits
        obtain ⟨rfl, abreast⟩ := line'.catchUp ahead
        rw [same']
        exact (given_eq_or one (.inl abreast) going (rest' rfl)).imp_right (.imp_right (.imp_left (.line line')))
      · obtain ⟨rfl, abreast⟩ := line.catchUp behind
        rw [same]
        exact (given_eq_or one (.inl abreast.symm) (rest rfl) going').imp_right (.imp_left (.imp_left (.line line)))
termination_by n + n'

/-- As far as both go, the names are the same. -/
theorem comparable {s' : Assembler} {n' : Nat} (one : given.NamesOneFile last) (level : Level s s')
    (going : Going given last n s) (going' : Going given last n' s') :
    (statements n s).given <:+ (statements n' s').given ∨ (statements n' s').given <:+ (statements n s).given := by
  obtain same | ⟨-, shorter⟩ | ⟨-, longer⟩ := going.given_eq_or one level going'
  · exact .inl (same ▸ List.suffix_refl _)
  · exact .inl shorter
  · exact .inr longer

end Going

end Lines

section Passes

variable {given last : SourceTable} {s s' : Assembler} {root : Nat}

/-- A pass without errors is done with its last statement. -/
theorem onePass_eq_laidOut (sound : s.Sound) (clean : (s.onePass root).diagnostics.isEmpty = true) :
    s.onePass root = s.laidOut root :=
  (endPass_eq_self ((sound.begun root).steps (reaches_laidOut sound root).steps) clean).2

theorem going_begun (sound : s.Sound) (clean : (s.onePass root).diagnostics.isEmpty = true)
    (before : given.Within s.files) (after : (s.onePass root).files.Within last) :
    Going given last (s.begun root).lineBudget (s.begun root) := by
  have same := onePass_eq_laidOut sound clean
  rw [same] at clean after
  exact ⟨sound.begun root, tidy_begun s root, clean, before, after⟩

theorem abreast_begun (text : s.files.text? root = s'.files.text? root) : Abreast (s.begun root) (s'.begun root) := by
  refine ⟨?_, rfl⟩
  show TokenStream.ofFile s.files root = TokenStream.ofFile s'.files root
  rw [TokenStream.ofFile, TokenStream.ofFile, text]

/-- Without its file a pass gives no name. -/
theorem given_onePass_of_absent (sound : s.Sound) (clean : (s.onePass root).diagnostics.isEmpty = true)
    (absent : s.files.text? root = none) : (s.onePass root).given = [] := by
  have going := going_begun sound clean (.refl _) (.refl _)
  rw [onePass_eq_laidOut sound clean, laidOut]
  cases budget : (s.begun root).lineBudget with
  | zero => rfl
  | succ n =>
    rw [budget] at going
    obtain ⟨flow, t, line, -, same, -⟩ := going.next
    have ends : ∃ token rest, (s.begun root).tokens.next = (.ok token, rest) ∧ token.lexeme = .endOfFile := by
      show ∃ token rest, (TokenStream.ofFile s.files root).next = _ ∧ _
      rw [TokenStream.ofFile, absent]
      exact ⟨_, _, rfl, rfl⟩
    obtain ⟨token, tokens, found, ends⟩ := ends
    cases line with
    | ends read line =>
      obtain ⟨found', names⟩ := eq_of_nextToken read
      cases found.symm.trans found'
      rw [ends] at line
      cases line
      rw [same]
      exact names
    | statement read line =>
      cases found.symm.trans (eq_of_nextToken read).1
      rw [ends] at line
      cases line

/-- Two passes of a run give the same names, as far as both go. -/
theorem comparable_onePass (one : given.NamesOneFile last) (sound : s.Sound) (sound' : s'.Sound)
    (clean : (s.onePass root).diagnostics.isEmpty = true) (clean' : (s'.onePass root).diagnostics.isEmpty = true)
    (before : given.Within s.files) (before' : given.Within s'.files)
    (after : (s.onePass root).files.Within last) (after' : (s'.onePass root).files.Within last) :
    (s.onePass root).given <:+ (s'.onePass root).given ∨ (s'.onePass root).given <:+ (s.onePass root).given := by
  cases text : s.files.text? root with
  | none =>
    rw [given_onePass_of_absent sound clean text]
    exact .inl List.nil_suffix
  | some content =>
    cases text' : s'.files.text? root with
    | none =>
      rw [given_onePass_of_absent sound' clean' text']
      exact .inr List.nil_suffix
    | some content' =>
      have same := ((steps_onePass sound root).grows.files.trans after).text? text
      rw [((steps_onePass sound' root).grows.files.trans after').text? text'] at same
      cases same
      rw [onePass_eq_laidOut sound clean, onePass_eq_laidOut sound' clean']
      exact Going.comparable one (.inl (abreast_begun (text.trans text'.symm))) (going_begun sound clean before after)
        (going_begun sound' clean' before' after')

theorem once_onePass (sound : s.Sound) (root : Nat) : (s.onePass root).Once := by
  have none : (s.begun root).given = [] := rfl
  have begun : (s.begun root).Once := ⟨by simp [none], by simp [none]⟩
  exact begun.steps (sound.begun root) (steps_onePass sound root)

end Passes

section Runs

variable {s t : Assembler} {root n : Nat} {name : String}

/-- Passes add files and errors and take none away. -/
theorem afterPasses_mono (sound : s.Sound) (root : Nat) {m n : Nat} (le : m ≤ n) :
    (afterPasses root s m).files.Within (afterPasses root s n).files
      ∧ ((afterPasses root s n).diagnostics.isEmpty = true → (afterPasses root s m).diagnostics.isEmpty = true) := by
  induction le with
  | refl => exact ⟨.refl _, id⟩
  | @step n le ih =>
    have grows := (steps_onePass (sound.afterPasses root n) root).grows
    exact ⟨ih.1.trans grows.files, fun clean => ih.2 (grows.isEmpty_eq_true clean)⟩

/-- If no other file can be read, the table stays as it is. -/
theorem Step.files_eq (h : Step s t) (closed : s.files.Sealed s.disk) : t.files = s.files ∧ t.disk = s.disk := by
  cases h with
  | act h =>
    cases h with
    | load h => exact ⟨closed.eq_of_load (load_files h), by rw [load_eq h]⟩
    | lookUp pos known => exact ⟨by rw [lookUp_eq], by rw [lookUp_eq]⟩
    | read | intern | report | place | equate | declareExternal | clash | declarePublic | switch | bytes | operand | mark
    | branch | refuse => exact ⟨rfl, rfl⟩
  | allot | settle | clash | drop | blocks | begin | list | stop => exact ⟨rfl, rfl⟩

theorem Steps.files_eq (h : Steps s t) (closed : s.files.Sealed s.disk) : t.files = s.files ∧ t.disk = s.disk := by
  induction h with
  | refl => exact ⟨rfl, rfl⟩
  | tail _ step ih =>
    obtain ⟨files, disk⟩ := step.files_eq (by rw [ih.1, ih.2]; exact closed)
    exact ⟨files.trans ih.1, disk.trans ih.2⟩

theorem files_afterPasses (sound : s.Sound) (closed : s.files.Sealed s.disk) (root n : Nat) :
    (afterPasses root s n).files = s.files ∧ (afterPasses root s n).disk = s.disk := by
  induction n with
  | zero => exact ⟨rfl, rfl⟩
  | succ n ih =>
    have begun : (afterPasses root s n).files.Sealed (afterPasses root s n).disk := by rw [ih.1, ih.2]; exact closed
    obtain ⟨files, disk⟩ := (steps_onePass (sound.afterPasses root n) root).files_eq begun
    exact ⟨files.trans ih.1, disk.trans ih.2⟩

/-- A name that one of `n` passes gives. -/
def GivenIn (root : Nat) (s : Assembler) (n : Nat) (naming : Naming) : Prop :=
  ∃ i < n, naming ∈ (afterPasses root s (i + 1)).given

/-- A name that one pass declares to be elsewhere is not given a value here by another. -/
theorem not_here_of_elsewhere (one : s.files.NamesOneFile (afterPasses root s n).files) (sound : s.Sound)
    (clean : (afterPasses root s n).diagnostics.isEmpty = true) (elsewhere : GivenIn root s n (.elsewhere name)) :
    ¬ GivenIn root s n (.here name) := by
  rintro ⟨j, early', here⟩
  obtain ⟨i, early, elsewhere⟩ := elsewhere
  have pass (k : Nat) := afterPasses_mono sound root (Nat.zero_le k)
  obtain ⟨after, clean₁⟩ := afterPasses_mono sound root early
  obtain ⟨after', clean₂⟩ := afterPasses_mono sound root early'
  have comparable := comparable_onePass one (sound.afterPasses root i) (sound.afterPasses root j) (clean₁ clean)
    (clean₂ clean) (pass i).1 (pass j).1 after after'
  obtain shorter | longer := comparable
  · exact (once_onePass (sound.afterPasses root j) root).not_here (shorter.subset elsewhere) here
  · exact (once_onePass (sound.afterPasses root i) root).not_here elsewhere (longer.subset here)

theorem imports_afterPasses (sound : s.Sound) (root : Nat) (imports : s.Imports (GivenIn root s n)) {m : Nat}
    (le : m ≤ n) : (afterPasses root s m).Imports (GivenIn root s n) := by
  induction m with
  | zero => exact imports
  | succ m ih =>
    have before := ih (Nat.le_of_succ_le le)
    have begun : ((afterPasses root s m).begun root).Imports (GivenIn root s n) :=
      ⟨fun origin => before.table origin, fun mem => by cases mem⟩
    have sound := sound.afterPasses root m
    exact begun.steps (sound.begun root) (steps_onePass sound root) fun naming mem => ⟨m, le, mem⟩

theorem IsNew.imports (new : s.IsNew) (D : Naming → Prop) : s.prepared.Imports D := by
  rw [new]
  refine ⟨fun origin => ?_, fun mem => by cases mem⟩
  cases origin

/-- With all files in memory an included name stands for the same file throughout. -/
theorem namesOneFile_of_run {asm : Assembly} (new : s.IsNew) (run : s.run root = (.ok asm, t))
    (none : s.disk.files = ∅) : s.files.NamesOneFile t.files := by
  obtain ⟨n, -, concludes⟩ := exists_passes new run
  have same : (afterPasses root s.prepared (n + 1)).files = s.files :=
    (files_afterPasses new.prepared.1 (SourceTable.sealed_of_empty none _) root (n + 1)).1
  rw [concludes.files, same]
  exact s.files.namesOneFile_self

/-- An external value that the last pass of a run got for a name refers to a symbol of the module. The symbol is
itself external, as long as no included name comes to stand for another file. -/
theorem exists_external {asm : Assembly} (new : s.IsNew) (run : s.run root = (.ok asm, t)) {k id : SymbolId}
    {v : Address} (mem : .lookup k name v ∈ t.trace) (origin : v.origin = .external id) :
    ∃ sym, asm.object.symbols[id]? = some sym
      ∧ (s.files.NamesOneFile t.files → sym.address = .external id) := by
  obtain ⟨n, last, concludes⟩ := exists_passes new run
  rw [concludes.trace] at mem
  rw [concludes.object, concludes.files]
  have sound := new.prepared.1
  have imports := imports_afterPasses sound root (new.imports _) (Nat.le_refl (n + 1))
  obtain ⟨declared, elsewhere, known, entry, external⟩ := imports.asked mem origin
  obtain ⟨sym, found⟩ := Option.isSome_iff_exists.1 entry
  refine ⟨sym, SymbolTable.getElem?_named.2 ⟨found, ?_⟩, fun one => ?_⟩
  · exact (sound.afterPasses root (n + 1)).numbered.toNat_lt known
  · rw [← SymbolTable.address_of_get? found]
    exact external (not_here_of_elsewhere one sound last.clean elsewhere)

end Runs

end Assembler

end Asm65
