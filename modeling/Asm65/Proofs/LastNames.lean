import Asm65.Proofs.OrderedMap
import Asm65.Proofs.PassTermination
import Asm65.Proofs.RunNames

/-!
# The names of the last pass

Over files that are empty or end with a line, where no other file can be read, no pass reaches the limit on lines, and
all passes of a run go through the same lines to their end. So they give the same names, and every symbol of the module
that has a name was defined in the last pass.
-/

namespace Asm65.Assembler
set_option autoImplicit false

variable {files : SourceTable} {disk : Disk} {w : Nat → Nat} {s s' t : Assembler} {n : Nat}

/-- A line without errors is the one that the pass takes. -/
theorem Line.line_eq {flow : Flow} (clean : s.diagnostics.isEmpty = true) (h : Line s flow t) : s.line = (t, flow) := by
  have none : s.diagnostics.size = 0 := by simpa [Diagnostics.isEmpty] using clean
  have room : ¬ s.diagnostics.size > maxErrors := by omega
  unfold line
  rw [if_neg room]
  cases h with
  | @ends token t flow read line =>
    rw [read]
    cases which : token.lexeme <;> rw [which] at line <;> cases line <;> simp only [which]
  | @statement token t u flow read line run =>
    have one : t.oneStatement token = (u.listStatement token.pos t.current (t.segment t.current).size, flow) := by
      unfold oneStatement
      dsimp only
      rw [run]
    rw [read]
    cases which : token.lexeme <;> rw [which] at line <;> cases line <;> simp only [which, one]

/-- A limit that is more than what is left to read is not reached. -/
theorem Going.not_exhausts (positive : ∀ d, 1 ≤ w d)
    (along : ∀ first, AlongFresh (Proceeds files disk w) (Asm.statement first)) (going : Going files files n s)
    (reading : s.Reading files disk) (enough : s.tokens.pending w < n) : ¬ Exhausts n s := by
  intro exhausts
  induction exhausts with
  | zero => exact absurd enough (Nat.not_lt_zero _)
  | line line _ ih =>
    have clean := going.grows.isEmpty_eq_true going.clean
    have taken := line.line_eq clean
    obtain ⟨flow, t, line', -, -, rest⟩ := going.next
    cases taken.symm.trans (line'.line_eq clean)
    obtain ⟨course, less⟩ := course_of_line positive along reading taken
    exact ih (rest rfl) course.reading (Nat.lt_of_lt_of_le (less rfl) (Nat.le_of_lt_succ enough))

section Passes

variable {root : Nat}

/-- A pass over the files of the table goes on to its end. -/
theorem going_to_end (lined : s.files.Lined) (closed : s.files.Sealed s.disk) (sound : s.Sound)
    (clean : (s.onePass root).diagnostics.isEmpty = true) (known : root < s.files.size) :
    Going s.files s.files (s.begun root).lineBudget (s.begun root)
      ∧ ¬ Exhausts (s.begun root).lineBudget (s.begun root) := by
  have files : (s.onePass root).files = s.files := ((steps_onePass sound root).files_eq closed).1
  have after : (s.onePass root).files.Within s.files := by
    rw [files]
    exact .refl _
  have going := going_begun sound clean (.refl _) after
  exact ⟨going, going.not_exhausts s.one_le_scale (alongFresh_proceeds lined closed) (reading_begun known)
    (pending_begun_lt known)⟩

/-- Two passes over the same files give the same names. -/
theorem given_onePass_eq (lined : s.files.Lined) (closed : s.files.Sealed s.disk) (sound : s.Sound) (sound' : s'.Sound)
    (clean : (s.onePass root).diagnostics.isEmpty = true) (clean' : (s'.onePass root).diagnostics.isEmpty = true)
    (files : s'.files = s.files) (disk : s'.disk = s.disk) : (s.onePass root).given = (s'.onePass root).given := by
  by_cases known : root < s.files.size
  · obtain ⟨going, ends⟩ := going_to_end lined closed sound clean known
    obtain ⟨going', ends'⟩ :=
      going_to_end (files ▸ lined) (by rw [files, disk]; exact closed) sound' clean' (files ▸ known)
    rw [files] at going'
    rw [onePass_eq_laidOut sound clean, onePass_eq_laidOut sound' clean']
    have level : Level (s.begun root) (s'.begun root) := .inl (abreast_begun (by rw [files]))
    obtain same | ⟨exhausts, -⟩ | ⟨exhausts, -⟩ := going.given_eq_or s.files.namesOneFile_self level going'
    · exact same
    · exact absurd exhausts ends
    · exact absurd exhausts ends'
  · have absent : s.files.text? root = none := by
      rw [SourceTable.text?, SourceTable.get?, Array.getElem?_eq_none (Nat.not_lt.1 known)]
      rfl
    rw [given_onePass_of_absent sound clean absent, given_onePass_of_absent sound' clean' (files ▸ absent)]

end Passes

section Runs

variable {root : Nat}

theorem entered_afterPasses (sound : s.Sound) (root : Nat) (entered : s.Entered (GivenIn root s n)) {m : Nat}
    (le : m ≤ n) : (afterPasses root s m).Entered (GivenIn root s n) := by
  induction m with
  | zero => exact entered
  | succ m ih =>
    have begun : ((afterPasses root s m).begun root).Entered (GivenIn root s n) := ih (Nat.le_of_succ_le le)
    exact begun.steps (steps_onePass (sound.afterPasses root m) root) fun naming mem => ⟨m, le, mem⟩

theorem IsNew.entered (new : s.IsNew) (D : Naming → Prop) : s.prepared.Entered D := by
  rw [new]
  intro id sym low found
  cases found

/-- What any pass gives, the last one gives. -/
theorem given_last (lined : s.files.Lined) (closed : s.files.Sealed s.disk) (sound : s.Sound)
    (clean : (afterPasses root s (n + 1)).diagnostics.isEmpty = true) {naming : Naming}
    (given : GivenIn root s (n + 1) naming) : naming ∈ (afterPasses root s (n + 1)).given := by
  obtain ⟨i, early, mem⟩ := given
  obtain ⟨files, disk⟩ := files_afterPasses sound closed root i
  obtain ⟨files', disk'⟩ := files_afterPasses sound closed root n
  have same : (afterPasses root s (i + 1)).given = (afterPasses root s (n + 1)).given :=
    given_onePass_eq (files ▸ lined) (by rw [files, disk]; exact closed) (sound.afterPasses root i)
      (sound.afterPasses root n) ((afterPasses_mono sound root early).2 clean) clean (files'.trans files.symm)
      (disk'.trans disk.symm)
  exact same ▸ mem

/-- Every symbol of the module that has a name was defined in the last pass. -/
theorem pass_eq_of_run {asm : Assembly} (new : s.IsNew) (run : s.run root = (.ok asm, t)) (lined : s.files.Lined)
    (closed : s.files.Sealed s.disk) {id : SymbolId} {sym : Symbol} (found : asm.object.symbols[id]? = some sym) :
    sym.pass = asm.passes := by
  obtain ⟨n, last, concludes⟩ := exists_passes new run
  have sound := new.prepared.1
  rw [concludes.object] at found
  rw [concludes.passes]
  obtain ⟨entry, low⟩ := SymbolTable.getElem?_named.1 found
  obtain ⟨naming, given, known⟩ | ⟨isPublic, unknown⟩ :=
    entered_afterPasses sound root (new.entered _) (Nat.le_refl (n + 1)) low entry
  · have mem := given_last (s := s.prepared) lined closed sound last.clean given
    obtain ⟨id', sym', known', entry', now⟩ := (once_onePass (sound.afterPasses root n) root).defined mem
    cases known.symm.trans known'
    cases entry.symm.trans entry'
    exact now
  · have laidOut := ((sound.afterPasses root n).begun root).steps (reaches_laidOut (sound.afterPasses root n) root).steps
    have value := isUndefined_eq_false_of_endPass laidOut last.later last.clean
      ((OrderedMap.mem_values _).2 ⟨id, entry⟩) isPublic
    cases value.symm.trans unknown

end Runs

end Asm65.Assembler
