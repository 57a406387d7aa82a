import Asm65.Proofs.LoopTermination
import Asm65.Proofs.Pass

/-!
# The end of a pass

Take a table of files that are empty or end with a line, and suppose that no other file can be read. A pass then comes
to an end, whatever the files hold: the recursion over its lines, without a limit on their number, is decided, and so
are the loops of each statement (`pass_terminates`).

What becomes less from line to line is the weight of what is left to read. At each depth of inclusion a character
weighs as much as any file one deeper, so the end of the line of an inclusion pays for the file that it adds. No file is
added inside itself, so there are no more depths than files.
-/

namespace Asm65
set_option autoImplicit false

namespace SourceTable

variable {t u : SourceTable} {id : Nat}

/-- Every text is empty or ends with a line. -/
def Lined (t : SourceTable) : Prop := ∀ file ∈ t.files, file.text = "" ∨ file.text.toList.getLast? = some '\n'

theorem Lined.of_text? {text : String} (lined : t.Lined) (found : t.text? id = some text) :
    text = "" ∨ text.toList.getLast? = some '\n' := by
  obtain ⟨file, there, rfl⟩ := Option.map_eq_some_iff.1 found
  exact lined file (Array.mem_of_getElem? there)

/-- What a character weighs in a file that so many others include, one inside the other. -/
def scale (t : SourceTable) (base depth : Nat) : Nat := Nat.pow base (t.size - depth)

theorem scale_pos {base : Nat} (positive : 0 < base) (depth : Nat) : 1 ≤ t.scale base depth := Nat.pow_pos positive

/-- As much as a file one deeper, if there is one. -/
theorem le_scale {base depth n : Nat} (short : n ≤ base) (deep : depth + 1 < t.size) :
    n * t.scale base (depth + 1) ≤ t.scale base depth := by
  have next : t.size - depth = t.size - (depth + 1) + 1 := by omega
  show n * Nat.pow base (t.size - (depth + 1)) ≤ Nat.pow base (t.size - depth)
  rw [next]
  show _ ≤ Nat.pow base (t.size - (depth + 1)) * base
  rw [Nat.mul_comm]
  exact Nat.mul_le_mul_left _ short

end SourceTable

/-- What is left of a file of the table ends with a line. -/
theorem TokenStream.Placed.inLine {files : SourceTable} {s : TokenStream} (placed : s.Placed files) (lined : files.Lined)
    (some : s.top.rest ≠ []) : s.top.InLine := by
  obtain ⟨found, before, same⟩ := placed.texts s.top List.mem_cons_self
  obtain empty | line := lined.of_text? found
  · rw [empty] at same
    exact absurd (List.append_eq_nil_iff.1 same).2 some
  · rwa [← same, List.getLast?_append_of_ne_nil _ some] at line

namespace Assembler

variable {files : SourceTable} {disk : Disk} {w : Nat → Nat} {s t u : Assembler}

/-! ### Statements -/

/-- The assembler reads files of the table, none of them inside itself. -/
structure Reading (files : SourceTable) (disk : Disk) (s : Assembler) : Prop where
  table : s.files = files
  store : s.disk = disk
  placed : s.tokens.Placed files

/-- Reading and including lead from `s` to `t`, where no more is left to read. -/
structure Course (files : SourceTable) (disk : Disk) (w : Nat → Nat) (s t : Assembler) : Prop where
  reading : t.Reading files disk
  tokens : s.tokens.Course files t.tokens
  weigh_le : t.tokens.weigh w ≤ s.tokens.weigh w

/-- From a state of reading on. -/
def Proceeds (files : SourceTable) (disk : Disk) (w : Nat → Nat) (s t : Assembler) : Prop :=
  s.Reading files disk → s.Course files disk w t

theorem Reading.passes (reading : s.Reading files disk) (h : Passes s t) : t.Reading files disk :=
  ⟨h.files.trans reading.table, h.disk.trans reading.store, reading.placed.course (TokenStream.Onward.course h.tokens)⟩

theorem Course.trans (h : s.Course files disk w t) (k : t.Course files disk w u) : s.Course files disk w u :=
  ⟨k.reading, h.tokens.trans k.tokens, Nat.le_trans k.weigh_le h.weigh_le⟩

theorem forward_proceeds (positive : ∀ d, 1 ≤ w d) : Forward (Proceeds files disk w) where
  passes h reading :=
    ⟨reading.passes h, TokenStream.Onward.course h.tokens, TokenStream.weigh_onward positive h.tokens⟩
  trans h k reading := (h reading).trans (k (h reading).reading)

section Inclusion

variable (closed : files.Sealed disk)
  (light : ∀ id text d, files.text? id = some text → d + 1 < files.size → (text.toList.length + 1) * w (d + 1) ≤ w d)

include closed light

/-- Opening a file adds at most what a character of the file around it weighs. -/
theorem course_openInclude (reading : s.Reading files disk) (name : String) (pos : Position) :
    (leftBy (Asm.openInclude name pos s)).Reading files disk
      ∧ s.tokens.Course files (leftBy (Asm.openInclude name pos s)).tokens
      ∧ (leftBy (Asm.openInclude name pos s)).tokens.weigh w ≤ s.tokens.weigh w + w s.tokens.below.length := by
  unfold Asm.openInclude
  cases loaded : s.load (s.files.resolveInclude pos.file name) with
  | error cause => exact ⟨reading, .refl, Nat.le_add_right ..⟩
  | ok found =>
    obtain ⟨id, t⟩ := found
    have same : t.files = s.files := by
      have known := load_files loaded
      rw [reading.table, reading.store] at known
      exact (closed.eq_of_load known).trans reading.table.symm
    have tokens : t.tokens = s.tokens := by rw [load_eq loaded]
    have store : t.disk = s.disk := by rw [load_eq loaded]
    have reading := reading.passes (.still tokens same store)
    rw [← tokens]
    dsimp only
    cases pushed : t.tokens.pushFile t.files id pos with
    | error e => exact ⟨reading, .refl, Nat.le_add_right ..⟩
    | ok tokens =>
      rw [reading.table] at pushed
      have placed := reading.placed.push pushed
      refine ⟨⟨reading.table, reading.store, placed⟩, .single (.inr ⟨id, pos, pushed⟩), ?_⟩
      refine TokenStream.weigh_push pushed fun text found => light id text _ found ?_
      obtain ⟨-, text, -, rfl⟩ := TokenStream.of_pushFile pushed
      have depth := placed.length_le
      simp only [TokenStream.open_, TokenStream.cursors, List.length_map, List.length_cons] at depth
      exact depth

/-- The end of the line of an inclusion pays for the file. -/
theorem alongFresh_includeFile (lined : files.Lined) (positive : ∀ d, 1 ≤ w d) (pos : Position) :
    AlongFresh (Proceeds files disk w) (Asm.includeFile pos) := by
  have forward : Forward (Proceeds files disk w) := forward_proceeds positive
  intro s fresh reading
  rw [Asm.includeFile, leftBy_bind]
  cases read : Asm.nextToken s with
  | error e t => exact forward.passes (passes_nextToken_error read) reading
  | ok token t =>
    have took := took_nextToken read
    have first := forward.passes took.passes reading
    refine first.trans ?_
    dsimp only
    cases string : token.lexeme with
    | string name =>
      have line := TokenStream.inLine_of_string fresh (reading.placed.inLine lined) took.next string
      rw [leftBy_bind]
      cases read' : Asm.nextToken t with
      | error e u => exact forward.passes (passes_nextToken_error read') first.reading
      | ok last u =>
        have took' := took_nextToken read'
        have second := forward.passes took'.passes first.reading
        dsimp only
        cases ends : last.endsStatement with
        | false => exact second
        | true =>
          obtain ⟨-, below, paid⟩ := TokenStream.weigh_of_endOfLine (w := w) (TokenStream.ahead_of_next took.next) line
            took'.next ends
          obtain ⟨opened, course, cost⟩ := course_openInclude closed light second.reading name pos
          have left : leftBy ((do Asm.openInclude name pos; return .goOn : Asm Flow) u)
              = leftBy (Asm.openInclude name pos u) := by
            rw [leftBy_bind]
            cases Asm.openInclude name pos u <;> rfl
          rw [below] at cost
          exact left ▸ ⟨opened, second.tokens.trans course, Nat.le_trans cost paid⟩
    | _ => exact forward.passes (.still rfl rfl rfl) first.reading

end Inclusion

/-! ### Lines -/

/-- One line of a pass; says whether the pass goes on. -/
def line (s : Assembler) : Assembler × Flow :=
  if s.diagnostics.size > maxErrors then (s, .stop)
  else
    match Asm.nextToken s with
    | .error e s => ((s.record e).skipLine, .goOn)
    | .ok first s =>
      match first.lexeme with
      | .endOfFile => (s, .stop)
      | .endOfLine => (s, .goOn)
      | _ => s.oneStatement first

/-- Line after line. -/
def lining (self : Assembler → Assembler) (s : Assembler) : Assembler :=
  match s.line with
  | (t, .goOn) => self t
  | (t, .stop) => t

theorem statements_eq (n : Nat) : statements n = unfolded lining id n := by
  induction n with
  | zero => rfl
  | succ n ih =>
    rw [unfolded, ← ih]
    funext s
    unfold statements lining line
    split
    · rfl
    · cases Asm.nextToken s with
      | error e t => rfl
      | ok first t =>
        dsimp only
        cases first.lexeme <;> rfl

/-- The states in which the lines of a pass begin. -/
abbrev Lines : Assembler → Assembler → Prop := Relation.ReflTransGen fun s t => s.line = (t, .goOn)

end Assembler

namespace TokenStream

variable {w : Nat → Nat} {s t u : TokenStream} {token : Token}

/-- The weight of what is left, with one for the end of the root file while it has not been seen. -/
def pending (w : Nat → Nat) (s : TokenStream) : Nat :=
  s.weigh w + if s.ahead.any (·.lexeme == .endOfFile) then 0 else 1

theorem pending_le (w : Nat → Nat) (s : TokenStream) : s.pending w ≤ s.weigh w + 1 := by
  unfold pending
  split <;> omega

theorem pending_of_next {r : Except Error Token} (read : s.next = (r, t))
    (more : ∀ token, r = .ok token → token.lexeme ≠ .endOfFile) :
    s.pending w = s.weigh w + 1 := by
  rw [pending, if_neg]
  intro last
  cases put : s.ahead with
  | none =>
    rw [put] at last
    cases last
  | some token =>
    rw [put] at last
    rw [next, put] at read
    cases read
    exact more token rfl (by simpa using last)

/-- Behind a line less is left. -/
theorem StopsAt.pending_le (positive : ∀ d, 1 ≤ w d) (h : s.StopsAt t) : t.pending w ≤ s.weigh w := by
  obtain ⟨u, v, token, onward, read, stops⟩ := h
  have lighter := weigh_onward positive onward
  have next := weigh_next positive read
  obtain ⟨last, rfl⟩ | ⟨line, rfl⟩ := stops
  · have seen : (v.unread token).ahead.any (·.lexeme == .endOfFile) = true := by simp [unread, last]
    rw [pending, if_pos seen, weigh_unread (ahead_of_next read)]
    omega
  · have more : token.lexeme ≠ .endOfFile := by rw [line]; exact fun h => by cases h
    rw [Token.weight_eq_one more] at next
    have bound := TokenStream.pending_le w t
    omega

end TokenStream

namespace Assembler

variable {files : SourceTable} {disk : Disk} {w : Nat → Nat} {s t u : Assembler}

theorem Reading.skipLine (reading : s.Reading files disk) : Passes s s.skipLine :=
  ⟨(TokenStream.stopsAt_skipLine reading.placed.fits).onward, rfl, rfl⟩

section Line

variable (positive : ∀ d, 1 ≤ w d)

include positive

/-- Around a statement nothing is read but the rest of a line with an error. -/
theorem proceeds_oneStatement {first : Token} (along : AlongFresh (Proceeds files disk w) (Asm.statement first))
    (fresh : s.tokens.ahead = none) : Proceeds files disk w s (s.oneStatement first).1 := by
  have forward : Forward (Proceeds files disk w) := forward_proceeds positive
  have started : Passes s { s with start := s.here } := .still rfl rfl rfl
  have reached := forward.trans (forward.passes started) (along { s with start := s.here } fresh)
  intro reading
  have course := reached reading
  have ended {t : Assembler} (h : Passes (leftBy (Asm.statement first { s with start := s.here })) t) :
      s.Course files disk w t :=
    course.trans (forward.passes h course.reading)
  unfold oneStatement
  dsimp only
  cases run : Asm.statement first { s with start := s.here } with
  | ok flow t =>
    rw [run] at ended
    exact ended (.still rfl rfl rfl)
  | error e t =>
    rw [run] at ended course
    have recorded : Passes t (t.record e) := .still rfl rfl rfl
    dsimp only
    split
    · exact ended (.still rfl rfl rfl)
    · split
      · exact ended (.still rfl rfl rfl)
      · have skipped : Passes (t.record e) (t.record e).skipLine := (course.reading.passes recorded).skipLine
        exact ended (recorded.trans (skipped.trans (.still rfl rfl rfl)))

variable (along : ∀ first, AlongFresh (Proceeds files disk w) (Asm.statement first))

include along

/-- A line is a course of reading. If the pass goes on, less is left after it. -/
theorem course_of_line {flow : Flow} (reading : s.Reading files disk) (h : s.line = (t, flow)) :
    s.Course files disk w t ∧ (flow = .goOn → t.tokens.pending w < s.tokens.pending w) := by
  have forward : Forward (Proceeds files disk w) := forward_proceeds positive
  unfold line at h
  split at h
  · cases h
    exact ⟨forward.passes (.still rfl rfl rfl) reading, fun h => by cases h⟩
  · cases read : Asm.nextToken s with
    | error e u =>
      rw [read] at h
      cases h
      have failed := (next_of_nextToken_error read).1
      have course := forward.passes (passes_nextToken_error read) reading
      have noted : Passes u (u.record e) := .still rfl rfl rfl
      have recorded := course.reading.passes noted
      refine ⟨course.trans (forward.passes (noted.trans recorded.skipLine) course.reading), fun _ => ?_⟩
      rw [TokenStream.pending_of_next failed fun _ h => by cases h]
      refine Nat.lt_succ_of_le (Nat.le_trans ?_ course.weigh_le)
      exact (TokenStream.stopsAt_skipLine recorded.placed.fits).pending_le positive
    | ok first u =>
      rw [read] at h
      have took := took_nextToken read
      have course := forward.passes took.passes reading
      -- a token that is not the end of the root file pays for what is put back at the next line
      have paid (more : first.lexeme ≠ .endOfFile) (proceeds : Proceeds files disk w u t) :
          s.Course files disk w t ∧ (flow = .goOn → t.tokens.pending w < s.tokens.pending w) := by
        have rest := proceeds course.reading
        have lighter := TokenStream.weigh_next positive took.next
        have bound := t.tokens.pending_le w
        have le := rest.weigh_le
        rw [Token.weight_eq_one more] at lighter
        rw [TokenStream.pending_of_next took.next fun token same => by cases same; exact more]
        exact ⟨course.trans rest, fun _ => by omega⟩
      dsimp only at h
      split at h
      · cases h
        exact ⟨course, fun h => by cases h⟩
      · rename_i line
        cases h
        exact paid (by rw [line]; exact fun h => by cases h) (forward.passes (.still rfl rfl rfl))
      · rename_i more _
        have proceeds := proceeds_oneStatement positive (along first) (TokenStream.ahead_of_next took.next)
        rw [h] at proceeds
        exact paid more proceeds

/-- Line after line. -/
theorem course_of_lines (reading : s.Reading files disk) (h : Lines s t) : s.Course files disk w t := by
  have forward : Forward (Proceeds files disk w) := forward_proceeds positive
  induction h with
  | refl => exact forward.passes (.still rfl rfl rfl) reading
  | tail _ line ih => exact ih.trans (course_of_line positive along ih.reading line).1

theorem descends_lining :
    Descends lining (fun s f => f s) (fun s => s.tokens.pending w) (Reading files disk) (fun _ _ => True) := by
  intro f g s reading calls
  refine ⟨?_, trivial⟩
  show lining f s = lining g s
  unfold lining
  cases h : s.line with
  | mk t flow =>
    cases flow with
    | stop => rfl
    | goOn =>
      obtain ⟨course, less⟩ := course_of_line positive along reading h
      exact (calls t course.reading (less rfl)).1

end Line

/-! ### Recursive inclusion -/

/-- The name of a file that is being read and the end of the statement come next, with `t` behind them; the statement is
at `pos`. -/
def Reenters (files : SourceTable) (pos : Position) (id : Nat) (s t : TokenStream) : Prop :=
  ∃ name place u last, s.next = (.ok ⟨.string name, place⟩, u) ∧ u.next = (.ok last, t) ∧ last.endsStatement = true
    ∧ files.idOf? (files.resolveInclude pos.file name) = some id ∧ id ∈ t.open_

/-- A file of the table is not loaded again. -/
theorem load_of_idOf? {path : Path} {id : Nat} (found : s.files.idOf? path = some id) : s.load path = .ok (id, s) := by
  have known : s.files.load s.disk path = .ok (id, s.files) := by rw [SourceTable.load, found]
  rw [load, known]
  dsimp only
  rw [if_neg (Nat.lt_irrefl _)]

section Recursion

variable {name : String} {pos place : Position} {id : Nat} {last : Token} {tokens rest : TokenStream}

/-- The file is not entered: what is behind the statement comes next. -/
theorem includeFile_of_mem (string : s.tokens.next = (.ok ⟨.string name, place⟩, rest))
    (stop : rest.next = (.ok last, tokens))
    (ends : last.endsStatement = true) (found : s.files.idOf? (s.files.resolveInclude pos.file name) = some id)
    (mem : id ∈ tokens.open_) :
    Asm.includeFile pos s = .error (.at_ (.includeRecursion (s.files.displayName id)) pos)
      { s with tokens, lineEnded := last.lexeme == .endOfLine } := by
  have refused (v : Assembler) (table : v.files = s.files) (read : v.tokens = tokens) :
      Asm.openInclude name pos v = .error (.at_ (.includeRecursion (s.files.displayName id)) pos) v := by
    have known : v.files.idOf? (v.files.resolveInclude pos.file name) = some id := by rwa [table]
    unfold Asm.openInclude
    rw [load_of_idOf? known]
    dsimp only
    rw [read, TokenStream.pushFile_of_mem mem, table]
  show EStateM.bind Asm.nextToken _ s = _
  rw [EStateM.bind, nextToken_of_next string]
  show EStateM.bind Asm.nextToken _ _ = _
  rw [EStateM.bind, nextToken_of_next (s := { s with tokens := rest, lineEnded := _ }) stop]
  dsimp only
  rw [ends]
  show EStateM.bind (Asm.openInclude name pos) _ _ = _
  rw [EStateM.bind, refused { s with tokens, lineEnded := last.lexeme == .endOfLine } rfl rfl]

theorem statement_of_keyword (fits : s.tokens.Fits) (k : Keyword) :
    Asm.statement ⟨.keyword k, pos⟩ s = Asm.directive k pos s := by
  show Asm.statementWithin s.tokens.budget ⟨.keyword k, pos⟩ s = _
  cases budget : s.tokens.budget with
  | zero => exact absurd (budget ▸ fits.weigh_lt_budget) (Nat.not_lt_zero _)
  | succ n => rfl

/-- The recursion is reported, and the pass goes on behind the statement. -/
theorem line_of_reenters {u : TokenStream} (reading : s.Reading files disk) (lined : files.Lined)
    (few : s.diagnostics.size ≤ maxErrors) (inclusion : s.tokens.next = (.ok ⟨.keyword .includeFile, pos⟩, u))
    (h : Reenters files pos id u tokens) :
    s.line.2 = .goOn ∧ s.line.1.tokens = tokens
      ∧ s.line.1.diagnostics = s.diagnostics.record (.at_ (.includeRecursion (files.displayName id)) pos) := by
  obtain rfl := reading.table
  obtain ⟨name, place, v, last, string, stop, ends, found, mem⟩ := h
  have placed : u.Placed s.files := reading.placed.move (.take inclusion)
  have line := TokenStream.inLine_of_string (TokenStream.ahead_of_next inclusion) (placed.inLine lined) string rfl
  obtain ⟨lexeme, -, -⟩ :=
    TokenStream.weigh_of_endOfLine (w := fun _ => 1) (TokenStream.ahead_of_next string) line stop ends
  have failed (t : Assembler) (read : t.tokens = u) (table : t.files = s.files) :
      Asm.statement ⟨.keyword .includeFile, pos⟩ t
        = .error (.at_ (.includeRecursion (s.files.displayName id)) pos) { t with tokens, lineEnded := true } := by
    subst read
    rw [statement_of_keyword placed.fits]
    refine (includeFile_of_mem string stop ends (table ▸ found) mem).trans ?_
    rw [lexeme, table]
    rfl
  unfold Assembler.line
  rw [if_neg (Nat.not_lt.2 few), nextToken_of_next inclusion]
  show (oneStatement _ _).2 = _ ∧ _
  unfold oneStatement
  dsimp only
  rw [failed { s with tokens := u, lineEnded := _, start := _ } rfl rfl]
  exact ⟨rfl, rfl, rfl⟩

end Recursion

/-! ### The pass -/

/-- More than the length of any file. -/
def base (s : Assembler) : Nat :=
  s.files.files.foldl (fun n f => n + f.text.utf8ByteSize) 0 + s.disk.files.foldl (fun n _ bytes => n + bytes.size) 0 + 4

theorem length_lt_base {id : Nat} {text : String} (found : s.files.text? id = some text) :
    text.toList.length + 1 ≤ s.base := by
  have short := length_le_utf8ByteSize text
  have inTable := SourceTable.utf8ByteSize_le found
  unfold base
  omega

theorem one_le_scale (s : Assembler) (d : Nat) : 1 ≤ s.files.scale s.base d := SourceTable.scale_pos (Nat.succ_pos _) d

/-- A statement leads on in the files of the table, with no more left to read. -/
theorem alongFresh_proceeds (lined : s.files.Lined) (closed : s.files.Sealed s.disk) (first : Token) :
    AlongFresh (Proceeds s.files s.disk (s.files.scale s.base)) (Asm.statement first) := by
  have positive := s.one_le_scale
  have forward : Forward (Proceeds s.files s.disk (s.files.scale s.base)) := forward_proceeds positive
  refine alongFresh_statement (alongFresh_includeFile closed (fun id text d found deep => ?_) lined positive) first
  exact SourceTable.le_scale (length_lt_base found) deep

theorem reading_begun {root : Nat} (known : root < s.files.size) : (s.begun root).Reading s.files s.disk :=
  ⟨rfl, rfl, TokenStream.placed_ofFile known⟩

/-- The root file weighs no more than one character of a file that would include it. -/
theorem weigh_begun_le {root : Nat} (known : root < s.files.size) :
    (s.begun root).tokens.weigh (s.files.scale s.base) ≤ Nat.pow s.base (s.files.size + 1) := by
  have found : s.files.text? root = some s.files.files[root].text := by
    rw [SourceTable.text?, SourceTable.get?, Array.getElem?_eq_getElem known]
    rfl
  have weight : (s.begun root).tokens.weigh (s.files.scale s.base)
      = (s.files.files[root].text.toList.length + 1) * Nat.pow s.base s.files.size := by
    show ((TokenStream.ofFile s.files root).top.rest.length + 1) * Nat.pow s.base s.files.size + 0 + 0 = _
    rw [TokenStream.ofFile, found]
    rfl
  rw [weight, Nat.mul_comm]
  exact Nat.mul_le_mul_left _ (length_lt_base found)

/-- The limit on lines is more than what there is to read. -/
theorem pending_begun_lt {root : Nat} (known : root < s.files.size) :
    (s.begun root).tokens.pending (s.files.scale s.base) < (s.begun root).lineBudget := by
  have four : 4 ≤ s.base := Nat.le_add_left ..
  have positive : 0 < s.base := Nat.lt_of_lt_of_le (by decide) four
  have one : 1 ≤ Nat.pow s.base (s.files.size + 1) := Nat.pow_pos positive
  have more : Nat.pow s.base (s.files.size + 1) * 4 ≤ Nat.pow s.base (s.files.size + 1) * s.base :=
    Nat.mul_le_mul_left _ four
  calc (s.begun root).tokens.pending (s.files.scale s.base)
      ≤ (s.begun root).tokens.weigh (s.files.scale s.base) + 1 := TokenStream.pending_le ..
    _ ≤ Nat.pow s.base (s.files.size + 1) + 1 := Nat.succ_le_succ (weigh_begun_le known)
    _ < Nat.pow s.base (s.files.size + 1) * s.base := by omega
    _ = Nat.pow s.base (s.files.size + 2) := rfl
    _ ≤ Nat.pow s.base (s.files.size + s.disk.files.size + 2) :=
      Nat.pow_le_pow_right positive (Nat.add_le_add_right (Nat.le_add_right ..) 2)

/-- A pass over files that are empty or end with a line, where no other file can be read, comes to an end. Without a
limit on lines the recursion over them is decided, and gives what the pass does. So are the loops of a statement,
wherever reading and including leads from the root file, and there the files on the stack are different files of the
table. All lines begin at such a place. A file that includes one on the stack is not entered: the recursion is reported,
and the pass goes on behind the statement. -/
theorem pass_terminates {s : Assembler} {root : Nat} (known : root < s.files.size) (lined : s.files.Lined)
    (closed : s.files.Sealed s.disk) :
    Ends lining (fun f => f (s.begun root)) (s.laidOut root)
      ∧ (∀ v : Assembler, TokenStream.Course s.files (.ofFile s.files root) v.tokens →
          v.tokens.open_.Nodup ∧ v.tokens.open_.length ≤ s.files.size ∧ v.LoopsEnd
            ∧ ∀ pos id tokens, v.files = s.files → Reenters s.files pos id v.tokens tokens →
              ∃ lineEnded, Asm.includeFile pos v =
                .error (.at_ (.includeRecursion (s.files.displayName id)) pos) { v with tokens, lineEnded })
      ∧ ∀ u, Lines (s.begun root) u →
          TokenStream.Course s.files (.ofFile s.files root) u.tokens ∧ u.files = s.files
            ∧ ∀ pos id rest tokens, u.diagnostics.size ≤ maxErrors →
              u.tokens.next = (.ok ⟨.keyword .includeFile, pos⟩, rest) → Reenters s.files pos id rest tokens →
              u.line.2 = .goOn ∧ u.line.1.tokens = tokens
                ∧ u.line.1.diagnostics = u.diagnostics.record (.at_ (.includeRecursion (s.files.displayName id)) pos) := by
  have positive := s.one_le_scale
  have along := alongFresh_proceeds lined closed
  have reading := reading_begun known
  have placed : TokenStream.Placed s.files (.ofFile s.files root) := reading.placed
  refine ⟨?_, fun v course => ?_, fun u lines => ?_⟩
  · rw [laidOut, statements_eq]
    exact (descends_lining positive along).ends id reading (pending_begun_lt known)
  · have placed := placed.course course
    refine ⟨placed.distinct, placed.length_le, loopsEnd placed.fits, ?_⟩
    rintro pos id tokens same ⟨name, place, rest, last, string, stop, ends, found, mem⟩
    rw [← same] at found ⊢
    exact ⟨_, includeFile_of_mem string stop ends found mem⟩
  · have course := course_of_lines positive along reading lines
    refine ⟨course.tokens, course.reading.table, fun pos id rest tokens few inclusion reenters => ?_⟩
    exact line_of_reenters course.reading lined few inclusion reenters

/-- Two files that include each other, with a number that does not fit, a string without end and an open block. -/
def mutualInclusion : Assembler :=
  (((new .mos6502 {} {}).addSource "main.asm" "  nop\n  include \"part.inc\"\n  byte 65536\n").2.addSource "part.inc"
    "  if eq\n  include \"main.asm\"\n  byte \"open\n").2

/-- The pass over them ends with the recursion and the two other errors reported. -/
theorem pass_terminates_mutual_inclusion :
    0 < mutualInclusion.files.size ∧ mutualInclusion.files.Lined ∧ mutualInclusion.files.Sealed mutualInclusion.disk
      ∧ Ends lining (fun f => f (mutualInclusion.begun 0)) (mutualInclusion.laidOut 0)
      ∧ (mutualInclusion.laidOut 0).diagnostics.toList.map (·.cause)
        = [.numberTooLarge "65536", .includeRecursion "main.asm", .unterminatedString] := by
  have known : 0 < mutualInclusion.files.size := by decide +kernel
  have lined : mutualInclusion.files.Lined := by
    unfold SourceTable.Lined
    decide +kernel
  have closed : mutualInclusion.files.Sealed mutualInclusion.disk := SourceTable.sealed_of_empty rfl _
  exact ⟨known, lined, closed, (pass_terminates known lined closed).1, by decide +kernel⟩

end Assembler

end Asm65
