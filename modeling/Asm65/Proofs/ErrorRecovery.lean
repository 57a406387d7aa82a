import Asm65.Proofs.LineReading
import Asm65.Proofs.LineStarts
import Asm65.Proofs.PassTermination

/-!
# Recovery from errors

A pass that meets an error drops the rest of the line that the error is on, and goes on with the line behind it. So the
statements of a pass begin with the first tokens of their lines (`line_recovery`).

There is one exception. The test of a loop looks for the end of the loop on the lines behind it. If it meets a character
there that no token starts with, the line of the character is not dropped: the pass goes on behind the character, with a
statement in the middle of a line.
-/

namespace Asm65
set_option autoImplicit false

namespace Assembler

variable {s t u v w : Assembler} {e : Error} {token : Token}

/-! ### Turns -/

/-- The line that is being read is known, and so are the positions. -/
structure Oriented (u : Assembler) : Prop where
  sits : u.tokens.Sits u.files
  holds : u.tokens.line.Holds u.tokens

/-- The pass hands a token to a statement, in the state `t`. -/
structure Hands (u : Assembler) (first : Token) (t : Assembler) : Prop where
  few : u.diagnostics.size ≤ maxErrors
  read : Asm.nextToken u = .ok first t
  inside : first.endsStatement = false

/-- The line fails with an error that does not end the pass. -/
inductive Fails (u : Assembler) (e : Error) : Prop where
  | reading {t : Assembler} (few : u.diagnostics.size ≤ maxErrors) (read : Asm.nextToken u = .error e t) : Fails u e
  | statement {first : Token} {t v : Assembler} (hands : u.Hands first t)
      (run : Asm.statement first { t with start := t.here } = .error e v) (collected : e.isFatal = false) : Fails u e

/-- The line that the error is on is dropped: `v` goes on behind it. A duplicate label may have been found behind the line
that it is reported on. -/
def Drops (u : Assembler) (e : Error) (v : Assembler) : Prop :=
  ∃ m, u.tokens.line.LeadsTo m ∧ (e.category ≠ .duplicate → Blames m.At e) ∧ m.Precedes v.tokens

/-- The test of a loop on this line met the error on another line, behind which `v` goes on. -/
inductive Strays (u : Assembler) (e : Error) (v : Assembler) : Prop where
  | lookingAhead {pos : Position} {w t : Assembler} {k : TokenStream} (on : u.tokens.line.On w)
      (test : Asm.whileTest pos w = .error e t) (left : v.tokens = t.tokens)
      (empties : u.tokens.line.behind.Empties k) (met : k.next = (.error e, v.tokens)) : Strays u e v

theorem line_of_hands (h : u.Hands token t) : u.line = t.oneStatement token := by
  unfold line
  rw [if_neg (Nat.not_lt.2 h.few), h.read]
  dsimp only
  split
  · rename_i last
    cases h.inside.symm.trans (Token.endsStatement_iff.2 (.inr last))
  · rename_i feed
    exact absurd feed (Token.ne_endOfLine h.inside)
  · rfl

theorem Hands.on (h : u.Hands token t) (oriented : u.Oriented) :
    u.tokens.line.At token.pos ∧ u.tokens.line.On { t with start := t.here } := by
  obtain ⟨read, same⟩ := next_of_nextToken h.read
  have took := oriented.holds.next read
  have more := Token.ne_endOfLine h.inside
  refine ⟨took.place, ?_, took.holds more⟩
  show t.lineEnded = false
  rw [same]
  exact beq_eq_false_iff_ne.2 more

theorem Hands.ran (h : u.Hands token t) (oriented : u.Oriented) :
    u.tokens.line.Ran (Asm.statement token { t with start := t.here }) :=
  SourceLine.runs_statement (h.on oriented).1 _ (h.on oriented).2

/-- A failing line is dropped, and the pass goes on. -/
theorem exists_line_of_fails (oriented : u.Oriented) (h : u.Fails e) :
    ∃ v, u.line = (v, .goOn) ∧ (u.Drops e v ∨ u.Strays e v) := by
  cases h with
  | @reading t few read =>
    obtain ⟨failed, -⟩ := next_of_nextToken_error read
    obtain ⟨line, cause, pos, rfl, here⟩ := oriented.holds.next_error failed
    have held : u.tokens.line.Holds t.tokens :=
      .on (TokenStream.ahead_of_next failed) line (oriented.holds.fits.next failed)
    refine ⟨(t.record (.at_ cause pos)).skipLine, ?_, .inl ⟨_, .inl rfl, fun _ => blames_at here cause, ?_⟩⟩
    · unfold Assembler.line
      rw [if_neg (Nat.not_lt.2 few), read]
    · exact ⟨_, .refl, SourceLine.resumes_skipLine held⟩
  | @statement first t v hands run collected =>
    have ran := hands.ran oriented
    rw [run] at ran
    rw [line_of_hands hands]
    unfold oneStatement
    dsimp only
    rw [run]
    dsimp only
    rw [if_neg (by rw [collected]; exact Bool.false_ne_true)]
    refine ⟨_, rfl, ?_⟩
    cases ran with
    | failed leads blames left =>
      refine .inl ⟨_, leads, blames, ?_⟩
      obtain on | past := left
      · rw [if_neg (by rw [show (v.record e).lineEnded = false from on.lineEnded]; exact Bool.false_ne_true)]
        exact ⟨_, .refl, SourceLine.resumes_skipLine on.holds⟩
      · rw [if_pos (show (v.record e).lineEnded = true from past.lineEnded)]
        exact past.precedes
    | strayed on test strays =>
      obtain ⟨⟨k, empties, met⟩, lineEnded⟩ := strays
      rw [if_pos (show (v.record e).lineEnded = true from lineEnded)]
      exact .inr (.lookingAhead on test rfl empties met)
    | fatal fatal => exact absurd (fatal.symm.trans collected) Bool.noConfusion

/-! ### Files -/

/-- Files are added, and none is lost. -/
def Extends (s t : Assembler) : Prop := s.files.Within t.files

instance : Forward Extends where
  passes h := show _ by rw [Extends, h.files]; exact .refl _
  trans h k := h.trans k

theorem along_openInclude (name : String) (pos : Position) : Along Extends (Asm.openInclude name pos) := by
  intro s
  unfold Asm.openInclude
  cases loaded : s.load (s.files.resolveInclude pos.file name) with
  | error cause => exact .refl _
  | ok found =>
    obtain ⟨id, t⟩ := found
    obtain ⟨within, -⟩ := SourceTable.of_load (load_files loaded)
    dsimp only
    cases t.tokens.pushFile t.files id pos <;> exact within

theorem extends_oneStatement (fresh : s.tokens.ahead = none) (first : Token) : Extends s (s.oneStatement first).1 := by
  have along := alongFresh_statement (fun pos => (along_includeFile fun name => along_openInclude name pos).fresh) first
    { s with start := s.here } fresh
  unfold oneStatement
  dsimp only
  cases run : Asm.statement first { s with start := s.here } with
  | ok flow t =>
    rw [run] at along
    exact along
  | error e t =>
    rw [run] at along
    dsimp only
    split
    · exact along
    · split <;> exact along

/-- A line loses no file, whether it fails or not. -/
theorem extends_of_line {flow : Flow} (h : u.line = (v, flow)) : Extends u v := by
  unfold line at h
  split at h
  · cases h
    exact .refl _
  · cases read : Asm.nextToken u with
    | error e t =>
      rw [read] at h
      cases h
      have before : Extends u t := Forward.passes (passes_nextToken_error read)
      exact before
    | ok first t =>
      rw [read] at h
      have took := took_nextToken read
      have before : Extends u t := Forward.passes took.passes
      dsimp only at h
      split at h
      · cases h
        exact before
      · cases h
        exact before
      · have after := extends_oneStatement (TokenStream.ahead_of_next took.next) first
        rw [h] at after
        exact before.trans after

/-! ### Line after line -/

/-- The token that comes next is the first of its line. -/
def OpensLine (u : Assembler) : Prop :=
  ∀ first tokens, u.tokens.next = (.ok first, tokens) → first.endsStatement = false → u.files.opensLine first.pos = true

/-- How one line leads to the next. -/
inductive Turn (u v : Assembler) : Prop where
  | onward {m : SourceLine} (leads : u.tokens.line.LeadsTo m) (precedes : m.Precedes v.tokens) : Turn u v
  | entered {id : Nat} {pos : Position} (pushed : u.tokens.line.behind.pushFile v.files id pos = .ok v.tokens) : Turn u v
  | strayed {e : Error} (strays : u.Strays e v) : Turn u v

theorem turn_of_fails (oriented : u.Oriented) (fails : u.Fails e) (h : u.line = (v, .goOn)) : Turn u v := by
  obtain ⟨w, same, left⟩ := exists_line_of_fails oriented fails
  cases same.symm.trans h
  obtain ⟨m, leads, -, precedes⟩ | strays := left
  · exact .onward leads precedes
  · exact .strayed strays

/-- A line that hands a token to a statement and goes on leads to the next one: behind it, into a file, or past an
error. -/
theorem turn_of_hands (oriented : u.Oriented) (hands : u.Hands token t) (h : u.line = (v, .goOn)) : Turn u v := by
  have ran := hands.ran oriented
  have turn := h
  rw [line_of_hands hands] at turn
  unfold oneStatement at turn
  dsimp only at turn
  cases run : Asm.statement token { t with start := t.here } with
  | ok flow w =>
    rw [run] at turn ran
    cases turn
    cases ran with
    | ended leads precedes => exact .onward leads precedes
    | entered pushed => exact .entered pushed
  | error e w =>
    cases fatal : e.isFatal with
    | false => exact turn_of_fails oriented (.statement hands run fatal) h
    | true =>
      rw [run] at turn
      dsimp only at turn
      rw [if_pos fatal] at turn
      cases turn

/-- So does any line after which the pass goes on, also an empty one and one that cannot be read. -/
theorem turn_of_line (oriented : u.Oriented) (h : u.line = (v, .goOn)) : Turn u v := by
  have turn := h
  unfold line at turn
  split at turn
  · cases turn
  · rename_i few
    have few : u.diagnostics.size ≤ maxErrors := Nat.not_lt.1 few
    cases read : Asm.nextToken u with
    | error e t => exact turn_of_fails oriented (.reading few read) h
    | ok first t =>
      cases ends : first.endsStatement with
      | false => exact turn_of_hands oriented ⟨few, read, ends⟩ h
      | true =>
        have took := oriented.holds.next (next_of_nextToken read).1
        rw [read] at turn
        obtain feed | last := Token.endsStatement_iff.1 ends
        · simp only [feed] at turn
          cases turn
          exact .onward (.inl rfl) ⟨_, .refl, .inl (took.ended ends)⟩
        · simp only [last] at turn
          cases turn

section Start

variable {l m : SourceLine} {k tokens : TokenStream}

/-- Reading goes on at the start of a line. -/
theorem oriented_of_resumes (starts : k.Starts v.files) (h : k.Resumes v.tokens) : v.Oriented ∧ v.OpensLine := by
  obtain ⟨same, holds⟩ := h.holds starts.fresh starts.sits.fits
  refine ⟨⟨?_, same ▸ holds⟩, fun first tokens read inside => ?_⟩
  · obtain at_ | ⟨token, tokens, read, -, put⟩ := h
    · exact at_ ▸ starts.sits
    · exact put ▸ (starts.sits.next read).unread token
  · exact starts.opensLine_of_next (h.next ▸ read) inside

theorem starts_of_leadsTo {files : SourceTable} (leads : l.LeadsTo m) (h : l.behind.Starts files) :
    m.behind.Starts files := by
  obtain rfl | ⟨k, empties, rfl⟩ := leads
  · exact h
  · exact (h.empties empties).sits.behindLine

theorem oriented_of_turn (oriented : u.Oriented) (within : Extends u v) (h : Turn u v) :
    v.Oriented ∧ (v.OpensLine ∨ ∃ e, u.Strays e v) := by
  have behind : u.tokens.line.behind.Starts v.files := (oriented.sits.mono within).behindLine
  cases h with
  | onward leads precedes =>
    obtain ⟨k, empties, resumes⟩ := precedes
    have starts := (starts_of_leadsTo leads behind).empties empties
    exact (oriented_of_resumes starts resumes).imp_right .inl
  | entered pushed => exact (oriented_of_resumes (behind.push pushed) (.refl _)).imp_right .inl
  | strayed strays =>
    refine ⟨?_, .inr ⟨_, strays⟩⟩
    obtain ⟨-, -, -, empties, met⟩ := strays
    have sits := (behind.empties empties).sits.next met
    exact ⟨sits, .on (TokenStream.ahead_of_next met) rfl sits.fits⟩

end Start

/-- Every line of a pass is read from its start, unless a test has strayed. -/
theorem oriented_of_lines {root : Nat} (h : Lines (s.begun root) u) :
    u.Oriented ∧ (u.OpensLine ∨ ∃ w e, Lines (s.begun root) w ∧ w.line = (u, .goOn) ∧ w.Strays e u) := by
  induction h with
  | refl =>
    have starts : TokenStream.Starts (s.begun root).files (s.begun root).tokens := .ofFile s.files root
    exact (oriented_of_resumes starts (.refl _)).imp_right .inl
  | @tail w u before turn ih =>
    obtain ⟨oriented, left⟩ := oriented_of_turn ih.1 (extends_of_line turn) (turn_of_line ih.1 turn)
    exact ⟨oriented, left.imp_right fun strays => strays.elim fun e strays => ⟨w, e, before, turn, strays⟩⟩

/-- Behind the error on the other line, the error is met again or the line ends, unless the error is a character that no
token starts with. -/
theorem Strays.next (h : u.Strays e v) :
    (∃ c pos, e = .at_ (.unexpectedCharacter c) pos) ∨ v.tokens.next = (.error e, v.tokens)
      ∨ ∃ last tokens, v.tokens.next = (.ok last, tokens) ∧ last.endsStatement = true := by
  obtain ⟨-, -, -, empties, met⟩ := h
  exact TokenStream.next_of_error (empties.fresh u.tokens.line.fresh) met

/-- What becomes of a line that fails. If the error is on another line than the one that was left, it is met again there,
or the line ends behind it, or it is an unexpected character and what follows it comes next. -/
def Recovers (u : Assembler) (e : Error) (v : Assembler) : Prop :=
  u.Drops e v ∨ u.Strays e v
    ∧ ((∃ c pos, e = .at_ (.unexpectedCharacter c) pos) ∨ v.tokens.next = (.error e, v.tokens)
      ∨ ∃ last tokens, v.tokens.next = (.ok last, tokens) ∧ last.endsStatement = true)

/-- In a pass over any files, take a line that is reached. If a statement is read there, its first token is the first of a
line of the source, unless the line before was the test of a loop that met an unexpected character on its way to the end
of the loop. If the line fails, the pass goes on, and what is left of the line that the error is on is dropped, with the
same exception. However the line ends, the pass goes on with the whole line behind it or with the start of a file that
was included there. -/
theorem line_recovery (s : Assembler) (root : Nat) {u : Assembler} (reached : Lines (s.begun root) u) :
    (∀ first t, u.Hands first t → u.line = t.oneStatement first
      ∧ (u.files.opensLine first.pos = true ∨ ∃ w c pos, Lines (s.begun root) w ∧ w.line = (u, .goOn)
          ∧ w.Strays (.at_ (.unexpectedCharacter c) pos) u))
    ∧ (∀ e, u.Fails e → ∃ v, u.line = (v, .goOn) ∧ u.Recovers e v)
    ∧ ∀ v, u.line = (v, .goOn) → u.Turn v := by
  obtain ⟨oriented, before⟩ := oriented_of_lines reached
  refine ⟨fun first t hands => ⟨line_of_hands hands, ?_⟩, fun e fails => ?_, fun v => turn_of_line oriented⟩
  · have read := (next_of_nextToken hands.read).1
    obtain opens | ⟨w, e, earlier, turn, strays⟩ := before
    · exact .inl (opens first t.tokens read hands.inside)
    · refine .inr ?_
      obtain ⟨c, pos, rfl⟩ | again | ⟨last, tokens, ended, ends⟩ := strays.next
      · exact ⟨w, c, pos, earlier, turn, strays⟩
      · cases again.symm.trans read
      · cases ended.symm.trans read
        cases ends.symm.trans hands.inside
  · obtain ⟨v, turn, left⟩ := exists_line_of_fails oriented fails
    exact ⟨v, turn, left.imp_right fun strays => ⟨strays, strays.next⟩⟩

/-! ### Two sources -/

theorem lines_line (h : u.line.2 = .goOn) : Lines u u.line.1 := .single (Prod.ext rfl h)

/-- The next token can be looked up. -/
theorem exists_hands {p : Token → Bool} (few : u.diagnostics.size ≤ maxErrors)
    (h : u.tokens.next.1.toOption.any (fun first => !first.endsStatement && p first) = true) :
    ∃ first t, u.Hands first t ∧ p first = true := by
  cases read : u.tokens.next with
  | mk r tokens =>
    rw [read] at h
    cases r with
    | error e => cases h
    | ok first =>
      obtain ⟨inside, holds⟩ := Bool.and_eq_true_iff.1 h
      exact ⟨first, _, ⟨few, nextToken_of_next read, by simpa using inside⟩, holds⟩

theorem exists_fails (few : u.diagnostics.size ≤ maxErrors) (h : u.tokens.next.1.toOption.isNone = true) :
    ∃ e, u.Fails e := by
  cases read : u.tokens.next with
  | mk r tokens =>
    rw [read] at h
    cases r with
    | ok token => cases h
    | error e =>
      refine ⟨e, .reading (t := { u with tokens }) few ?_⟩
      unfold Asm.nextToken
      rw [read]

/-- An error inside a statement and one in front of it. -/
def twoErrors : Assembler := ((new .mos6502 {} {}).addSource "main.asm" "  byte 1 @\n  @ nop\n  rts\n").2

/-- The second line is read after the error on the first, and the third after the error on the second. -/
theorem line_recovery_two_errors :
    ∃ u v, Lines (twoErrors.begun 0) u ∧ u.line = (v, .goOn) ∧ (∃ e, u.Fails e ∧ u.Recovers e v)
      ∧ ∃ first t, v.Hands first t ∧ first.pos = ⟨0, 3, 3⟩ ∧ v.line = t.oneStatement first := by
  have second : Lines (twoErrors.begun 0) (twoErrors.begun 0).line.1 := lines_line (by decide +kernel)
  have third : Lines (twoErrors.begun 0).line.1 (twoErrors.begun 0).line.1.line.1 := lines_line (by decide +kernel)
  obtain ⟨e, fails⟩ := exists_fails (u := (twoErrors.begun 0).line.1) (by decide +kernel) (by decide +kernel)
  obtain ⟨v, turn, recovers⟩ := (line_recovery twoErrors 0 second).2.1 e fails
  obtain ⟨first, t, hands, place⟩ := exists_hands (u := (twoErrors.begun 0).line.1.line.1)
    (p := fun first => decide (first.pos = ⟨0, 3, 3⟩)) (by decide +kernel) (by decide +kernel)
  obtain ⟨statement, -⟩ := (line_recovery twoErrors 0 (second.trans third)).1 first t hands
  rw [turn] at hands statement
  exact ⟨_, v, second, turn, ⟨e, fails, recovers⟩, first, t, hands, of_decide_eq_true place, statement⟩

/-- A test whose loop goes on with a character that no token starts with. -/
def strayTest : Assembler := ((new .mos6502 {} {}).addSource "main.asm" "  do\n  while eq\n@ nop\n").2

/-- What follows the character is read as a statement, in the middle of its line. -/
theorem hands_behind_character :
    ∃ u first t, Lines (strayTest.begun 0) u ∧ u.Hands first t ∧ u.files.opensLine first.pos = false := by
  have reached : Lines (strayTest.begun 0) (strayTest.begun 0).line.1.line.1 :=
    (lines_line (by decide +kernel)).trans (lines_line (by decide +kernel))
  obtain ⟨first, t, hands, inside⟩ := exists_hands (u := (strayTest.begun 0).line.1.line.1)
    (p := fun first => !(strayTest.begun 0).line.1.line.1.files.opensLine first.pos)
    (by decide +kernel) (by decide +kernel)
  exact ⟨_, first, t, reached, hands, Bool.not_eq_true' _ ▸ inside⟩

end Assembler

end Asm65
