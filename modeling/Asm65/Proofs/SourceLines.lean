import Asm65.Proofs.Inclusion
import Asm65.Proofs.TokenMoves

/-!
# Lines of the source

No token reaches beyond its line. So a stream that has read some of the tokens of a line has the same line before it as
at the start, and the end of the line leads behind it: to the line after it or, at the end of a file, back to the file
around it (`Scanned`). Skipping a line leads to the same place from anywhere on the line (`resumes_skipLine`).
-/

namespace Asm65
set_option autoImplicit false

theorem Token.endsStatement_iff {t : Token} :
    t.endsStatement = true ↔ t.lexeme = .endOfLine ∨ t.lexeme = .endOfFile := by
  cases lexeme : t.lexeme <;> simp [endsStatement, lexeme] <;> rfl

theorem Token.ne_endOfLine {t : Token} (inside : t.endsStatement = false) : t.lexeme ≠ .endOfLine :=
  fun feed => by cases inside.symm.trans (endsStatement_iff.2 (.inl feed))

/-! ### Lexemes stay within their line -/

namespace Scan

/-- The characters that are found end no line. -/
def Found.Inline (c : Char) (rest : List Char) (found : Found) : Prop := '\n' ∉ (c :: rest).take found.length

theorem inline_numeral {c : Char} {rest marks text : List Char} {radix : Nat} {found : Found}
    (split : c :: rest = marks ++ text) (line : '\n' ∉ marks) (h : numeral? radix marks.length text = some found) :
    found.Inline c rest := by
  unfold numeral? at h
  dsimp only at h
  split at h
  · cases h
  · split at h <;> cases h
    · have digits := Cursor.not_mem_take_takeWhile (p := Numeral.isDigit radix) rfl text
      unfold Found.Inline
      rw [split, List.take_append, List.take_of_length_le (Nat.le_add_right ..), Nat.add_sub_cancel_left,
        List.mem_append, not_or]
      exact ⟨line, digits⟩
    · exact List.not_mem_nil

theorem inline_word {c : Char} {rest : List Char} {found : Found} (h : word? (c :: rest) = some found) :
    found.Inline c rest := by
  unfold word? at h
  dsimp only at h
  split at h <;> cases h
  exact Cursor.not_mem_take_takeWhile rfl _

theorem exists_of_punct {c : Char} {rest : List Char} {p : Punct} (h : punct? c rest = some p) :
    ∃ after, c :: rest = p.spelling ++ after := by
  unfold punct? at h
  split at h <;> cases h <;> exact ⟨_, rfl⟩

theorem not_mem_spelling (p : Punct) : '\n' ∉ p.spelling := by
  cases p <;> decide

/-- What a mark takes ends no line. -/
theorem inline_mark {c : Char} (inside : c ≠ '\n') (rest : List Char) : (mark c rest).Inline c rest := by
  unfold mark
  split
  · unfold character
    split
    · rename_i d after
      split
      · exact List.not_mem_nil
      · rename_i other
        have pair : '\n' ∉ ['\'', d] := by
          simp only [List.mem_cons, List.not_mem_nil, or_false, not_or]
          exact ⟨by decide, fun same => other same.symm⟩
        unfold Found.Inline
        dsimp only
        split
        · rename_i close
          obtain ⟨tail, rfl⟩ := List.head?_eq_some_iff.1 close
          show '\n' ∉ ['\'', d] ++ ['\'']
          rw [List.mem_append, not_or]
          exact ⟨pair, by decide⟩
        · exact pair
    · exact List.not_mem_nil
  · unfold quotedString
    split
    · rename_i n acc body
      obtain ⟨string, after, rfl, rfl, line⟩ := exists_of_stringBody body
      unfold Found.Inline
      rw [Nat.add_comm, List.take_succ_cons, List.take_left', List.mem_cons, not_or]
      · exact ⟨by decide, line⟩
      · rfl
    · unfold Found.Inline
      rw [Nat.add_comm, List.take_succ_cons, List.mem_cons, not_or]
      exact ⟨by decide, Cursor.not_mem_take_takeWhile rfl rest⟩
  · split
    · rename_i p found
      obtain ⟨after, same⟩ := exists_of_punct found
      unfold Found.Inline
      rw [same, List.take_left']
      · exact not_mem_spelling p
      · rfl
    · exact fun mem => inside (List.mem_singleton.1 mem).symm

theorem inline_lexeme {c : Char} (inside : c ≠ '\n') (rest : List Char) : (lexeme c rest).Inline c rest :=
  forall_lexeme inline_numeral inline_word (inline_mark inside rest)

/-- Behind an error is the place of the error, the end of the line, or what follows a character. -/
inductive Found.Refuses (c : Char) (rest : List Char) : Found → Prop where
  | stays {cause : Cause} : Refuses c rest ⟨0, .error cause⟩
  | lineEnd {cause : Cause} : Refuses c rest ⟨((c :: rest).takeWhile (· != '\n')).length, .error cause⟩
  | character : Refuses c rest ⟨1, .error (.unexpectedCharacter c)⟩

/-- A mark that is refused is given up within its line. -/
theorem refuses_mark {c : Char} {rest : List Char} {cause : Cause} (h : (mark c rest).result = .error cause) :
    (mark c rest).Refuses c rest := by
  unfold mark at h ⊢
  split at h
  · unfold character at h ⊢
    split at h
    · split at h
      · rw [if_pos ‹_›]
        exact .stays
      · cases h
    · exact .stays
  · unfold quotedString at h ⊢
    split at h
    · cases h
    · have line : 1 + (rest.takeWhile (· != '\n')).length = (('"' :: rest).takeWhile (· != '\n')).length :=
        Nat.add_comm ..
      rw [line]
      exact .lineEnd
  · split at h
    · cases h
    · exact .character

/-- So is any lexeme. A number that is too large is refused where it starts, and a word never is. -/
theorem refuses_lexeme {c : Char} {rest : List Char} {cause : Cause} (h : (lexeme c rest).result = .error cause) :
    (lexeme c rest).Refuses c rest := by
  refine forall_lexeme (P := fun found => found.result = .error cause → found.Refuses c rest) ?_ ?_ refuses_mark h
  · intro radix marks text found _ _ found' failed
    unfold numeral? at found'
    dsimp only at found'
    split at found'
    · cases found'
    · split at found' <;> cases found'
      · cases failed
      · exact .stays
  · intro found found' failed
    unfold word? at found'
    dsimp only at found'
    split at found' <;> cases found'
    cases failed

end Scan

/-! ### The end of a line -/

namespace Text

theorem utf8Length_cons (c : Char) (cs : List Char) : utf8Length (c :: cs) = c.utf8Size + utf8Length cs := by
  have shift (n : Nat) : cs.foldl (fun n c => n + c.utf8Size) n = n + utf8Length cs := by
    unfold utf8Length
    induction cs generalizing n with
    | nil => rfl
    | cons d cs ih => rw [List.foldl_cons, List.foldl_cons, ih (n + d.utf8Size), ih (0 + d.utf8Size)]; omega
  rw [utf8Length, List.foldl_cons, shift, Nat.zero_add]

theorem utf8Length_append (cs ds : List Char) : utf8Length (cs ++ ds) = utf8Length cs + utf8Length ds := by
  induction cs with
  | nil => rw [List.nil_append, show utf8Length [] = 0 from rfl, Nat.zero_add]
  | cons c cs ih => rw [List.cons_append, utf8Length_cons, utf8Length_cons, ih, Nat.add_assoc]

end Text

namespace Cursor

variable {c d : Cursor} {n : Nat}

/-- Past all characters of a kind. -/
theorem advance_takeWhile (p : Char → Bool) (c : Cursor) : c.advance (c.rest.takeWhile p).length = { c with
    rest := c.rest.dropWhile p
    column := c.column + Text.utf8Length (c.rest.takeWhile p) } := by
  have before : c.rest.take (c.rest.takeWhile p).length = c.rest.takeWhile p :=
    (List.prefix_iff_eq_take.1 (List.takeWhile_prefix _)).symm
  have whole : c.rest.takeWhile p ++ c.rest.drop (c.rest.takeWhile p).length
      = c.rest.takeWhile p ++ c.rest.dropWhile p := by
    rw [List.takeWhile_append_dropWhile]
    nth_rewrite 1 [← before]
    exact List.take_append_drop ..
  rw [advance, before, List.append_cancel_left whole]

theorem lineEnd_eq (c : Cursor) : c.lineEnd = { c with
    rest := c.rest.dropWhile (· != '\n')
    column := c.column + Text.utf8Length (c.rest.takeWhile (· != '\n')) } := advance_takeWhile _ c

/-- The line of a cursor ends where the line ends of a cursor further on in it. -/
theorem lineEnd_advance (line : '\n' ∉ c.rest.take n) : (c.advance n).lineEnd = c.lineEnd := by
  have passed : ∀ ch ∈ c.rest.take n, (ch != '\n') = true := fun ch mem =>
    bne_iff_ne.2 fun same => line (same ▸ mem)
  have before : c.rest.takeWhile (· != '\n') = c.rest.take n ++ (c.rest.drop n).takeWhile (· != '\n') := by
    rw [← List.takeWhile_append_of_pos passed, List.take_append_drop]
  have after : (c.rest.take n ++ c.rest.drop n).dropWhile (· != '\n') = (c.rest.drop n).dropWhile (· != '\n') :=
    List.dropWhile_append_of_pos passed
  rw [List.take_append_drop] at after
  rw [lineEnd_eq, lineEnd_eq, before, after, Text.utf8Length_append, ← Nat.add_assoc]
  rfl

theorem eq_of_lineEnd {ch : Char} {rest : List Char} (h : c.lineEnd.rest = ch :: rest) : ch = '\n' := by
  rw [lineEnd_eq] at h
  have stop := List.head?_dropWhile_not (· != '\n') c.rest
  rw [show c.rest.dropWhile (· != '\n') = ch :: rest from h] at stop
  simpa using stop

theorem lineEnd_lineEnd (c : Cursor) : c.lineEnd.lineEnd = c.lineEnd := lineEnd_advance (not_mem_take_takeWhile rfl _)

theorem lineEnd_skipBlanks (c : Cursor) : c.skipBlanks.lineEnd = c.lineEnd := by
  have blanks : (c.advance (c.rest.takeWhile Scan.isBlank).length).lineEnd = c.lineEnd :=
    lineEnd_advance (not_mem_take_takeWhile rfl _)
  unfold skipBlanks
  dsimp only
  split
  · rw [lineEnd_lineEnd, blanks]
  · exact blanks

/-- A cursor at the end of its line is not moved there. -/
theorem lineEnd_eq_self (h : ∀ ch, c.rest.head? = some ch → ch = '\n') : c.lineEnd = c := by
  obtain ⟨file, text, rest, line, column⟩ := c
  cases rest with
  | nil => rfl
  | cons ch rest =>
    obtain rfl := h ch rfl
    rfl

theorem file_skipBlanks (c : Cursor) : c.skipBlanks.file = c.file := c.later_skipBlanks.file

theorem line_skipBlanks (c : Cursor) : c.skipBlanks.line = c.line := by
  unfold skipBlanks
  dsimp only
  split <;> rfl

/-- Blanks take a byte each. -/
theorem utf8Length_blanks {cs : List Char} (blanks : ∀ c ∈ cs, Scan.isBlank c = true) :
    Text.utf8Length cs = cs.length := by
  induction cs with
  | nil => rfl
  | cons c cs ih =>
    have size : c.utf8Size = 1 := by
      have blank := blanks c List.mem_cons_self
      simp only [Scan.isBlank, Bool.or_eq_true, beq_iff_eq] at blank
      obtain (rfl | rfl) | rfl := blank <;> rfl
    rw [Text.utf8Length_cons, size, ih fun d mem => blanks d (List.mem_cons_of_mem _ mem), List.length_cons, Nat.add_comm]

/-- In front of a token blanks are skipped, and no comment. -/
theorem column_skipBlanks {ch : Char} {rest : List Char} (characters : c.skipBlanks.rest = ch :: rest)
    (inside : ch ≠ '\n') : c.skipBlanks.column = c.column + (c.rest.takeWhile Scan.isBlank).length := by
  have blanks := advance_takeWhile Scan.isBlank c
  unfold skipBlanks at characters ⊢
  dsimp only at characters ⊢
  split at characters
  · exact absurd (eq_of_lineEnd characters) inside
  · rename_i plain
    rw [if_neg plain, blanks, utf8Length_blanks fun ch mem => List.mem_takeWhile_imp mem]

/-- Where no blank and no comment is, none is skipped. -/
theorem skipBlanks_eq_self (h : ∀ ch, c.rest.head? = some ch → Scan.isBlank ch = false ∧ ch ≠ ';') :
    c.skipBlanks = c := by
  obtain ⟨file, text, rest, line, column⟩ := c
  cases rest with
  | nil => rfl
  | cons ch rest =>
    obtain ⟨dark, plain⟩ := h ch rfl
    unfold skipBlanks
    rw [List.takeWhile_cons, dark]
    exact if_neg fun same => plain (Option.some.inj same)

/-- What stands behind blanks is no blank. -/
theorem skipBlanks_skipBlanks (c : Cursor) : c.skipBlanks.skipBlanks = c.skipBlanks := by
  have blanks := advance_takeWhile Scan.isBlank c
  refine skipBlanks_eq_self fun ch first => ?_
  unfold skipBlanks at first
  dsimp only at first
  split at first
  · obtain ⟨rest, characters⟩ := List.head?_eq_some_iff.1 first
    rw [eq_of_lineEnd characters]
    decide
  · rename_i plain
    refine ⟨?_, fun same => plain (same ▸ first)⟩
    have stop := List.head?_dropWhile_not Scan.isBlank c.rest
    rw [blanks] at first
    rw [first] at stop
    simpa using stop

end Cursor

namespace TokenStream

variable {s t : TokenStream} {token : Token}

/-- Behind the line being read: at the line after it or, at the end of a file, in the file around it. The end of the root
file is behind its last line. -/
def behindLine (s : TokenStream) : TokenStream :=
  let c := s.top.lineEnd
  match c.rest with
  | _ :: _ => { top := c.nextLine, below := s.below }
  | [] =>
    match s.below with
    | [] => { top := c }
    | outer :: below => { top := outer, below }

theorem ahead_behindLine (s : TokenStream) : s.behindLine.ahead = none := by
  unfold behindLine
  dsimp only
  split
  · rfl
  · split <;> rfl

theorem behindLine_congr (top : t.top.lineEnd = s.top.lineEnd) (below : t.below = s.below) :
    t.behindLine = s.behindLine := by
  unfold behindLine
  rw [top, below]

end TokenStream

/-- A line of a file, and the stream behind it. -/
structure SourceLine where
  file : Nat
  number : Nat
  behind : TokenStream
  fresh : behind.ahead = none

/-- A position on the line. -/
def SourceLine.At (l : SourceLine) (pos : Position) : Prop := pos.file = l.file ∧ pos.line = l.number

namespace TokenStream

variable {s t : TokenStream} {r : Except Error Token}

/-- The line that is being read. -/
def line (s : TokenStream) : SourceLine := ⟨s.top.file, s.top.line, s.behindLine, s.ahead_behindLine⟩

theorem line_congr (file : t.top.file = s.top.file) (number : t.top.line = s.top.line)
    (top : t.top.lineEnd = s.top.lineEnd) (below : t.below = s.below) : t.line = s.line := by
  simp only [line, file, number, behindLine_congr top below]

/-- What is read where no token was put back: a token or an error on the line, which is then still being read, or the end
of the line, which leads behind it. The end of the root file is read again and again. -/
inductive Scanned (s : TokenStream) : Except Error Token → TokenStream → Prop where
  | token {l : Lexeme} {pos : Position} {t : TokenStream} (inside : l.endsStatement = false) (same : t.line = s.line)
      (place : s.line.At pos) : Scanned s (.ok ⟨l, pos⟩) t
  | error {cause : Cause} {pos : Position} {t : TokenStream} (same : t.line = s.line) (place : s.line.At pos) :
      Scanned s (.error (.at_ cause pos)) t
  | lineEnd {pos : Position} (place : s.line.At pos) : Scanned s (.ok ⟨.endOfLine, pos⟩) s.behindLine
  | fileEnd {pos : Position} (place : s.line.At pos) (same : s.behindLine.line = s.line)
      (again : s.behindLine.next = (.ok ⟨.endOfFile, pos⟩, s.behindLine)) :
      Scanned s (.ok ⟨.endOfFile, pos⟩) s.behindLine

/-- Reading where no token was put back, by what is behind the blanks: nothing, the end of a line, or a character. -/
theorem scanned_of_next (fresh : s.ahead = none) (h : s.next = (r, t)) : Scanned s r t := by
  have place : s.line.At s.top.skipBlanks.pos := ⟨s.top.file_skipBlanks, s.top.line_skipBlanks⟩
  have stop := s.top.lineEnd_skipBlanks
  rw [next, fresh] at h
  unfold scan at h
  dsimp only at h
  split at h
  · rename_i none
    rw [Cursor.lineEnd_eq_self (by simp [none])] at stop
    split at h
    · rename_i alone
      have behind : s.behindLine = { top := s.top.skipBlanks } := by rw [behindLine, ← stop, none, alone]
      have last : ({ s with top := s.top.skipBlanks } : TokenStream) = s.behindLine := by rw [behind, alone, fresh]
      cases h
      rw [last]
      refine .fileEnd place ?_ ?_
      · rw [← last]
        exact line_congr s.top.file_skipBlanks s.top.line_skipBlanks s.top.lineEnd_skipBlanks rfl
      · rw [behind]
        show scan _ = _
        unfold scan
        simp only [s.top.skipBlanks_skipBlanks, none]
    · rename_i outer below stack
      have outside : ({ s with top := outer, below } : TokenStream) = s.behindLine := by
        rw [behindLine, ← stop, none, stack, fresh]
      cases h
      rw [outside]
      exact .lineEnd place
  · rename_i ch rest characters
    split at h
    · rename_i feed
      subst feed
      rw [Cursor.lineEnd_eq_self (by simp [characters])] at stop
      have below : ({ s with top := s.top.skipBlanks.nextLine } : TokenStream) = s.behindLine := by
        rw [behindLine, ← stop, characters, fresh]
      cases h
      rw [below]
      exact .lineEnd place
    · rename_i inside
      have inline := Scan.inline_lexeme inside rest
      rw [Scan.Found.Inline, ← characters] at inline
      have same : ({ s with top := s.top.skipBlanks.advance (Scan.lexeme ch rest).length } : TokenStream).line = s.line :=
        line_congr s.top.file_skipBlanks s.top.line_skipBlanks ((Cursor.lineEnd_advance inline).trans stop) rfl
      cases found : (Scan.lexeme ch rest).result with
      | ok l =>
        rw [found] at h
        cases h
        exact .token ((Scan.within_lexeme ch rest).inside found) same place
      | error cause =>
        rw [found] at h
        cases h
        exact .error same place

/-! ### Streams on a line -/

end TokenStream

namespace SourceLine

variable {l : SourceLine} {s t : TokenStream} {token : Token}

/-- The end of the root file is behind the line, where it is read again and again. -/
structure Last (l : SourceLine) (token : Token) : Prop where
  again : l.behind.next = (.ok token, l.behind)
  same : l.behind.line = l

/-- The stream stands on the line, or it is behind the line and the end of the line has been put back. -/
inductive Holds (l : SourceLine) : TokenStream → Prop where
  | on {s : TokenStream} (fresh : s.ahead = none) (same : s.line = l) (fits : s.Fits) : Holds l s
  | back {s : TokenStream} {token : Token} (fresh : s.ahead = none) (same : s.line = l) (fits : s.Fits)
      (inside : token.endsStatement = false) (place : l.At token.pos) : Holds l (s.unread token)
  | ended {token : Token} (ends : token.endsStatement = true) (place : l.At token.pos) (fits : l.behind.Fits)
      (last : token.lexeme = .endOfFile → l.Last token) : Holds l (l.behind.unread token)

/-- The token has been read on the line. -/
structure Took (l : SourceLine) (token : Token) (t : TokenStream) : Prop where
  fresh : t.ahead = none
  fits : t.Fits
  place : l.At token.pos
  inside (h : token.endsStatement = false) : t.line = l
  ended (h : token.endsStatement = true) : t = l.behind
  last (h : token.lexeme = .endOfFile) : l.Last token

theorem Holds.fits (h : l.Holds s) : s.Fits := by
  cases h with
  | on _ _ fits => exact fits
  | back _ _ fits => exact fits.unread _
  | ended _ _ fits => exact fits.unread _

/-- Reading on a line takes a token of the line, also where one had been put back. -/
theorem Holds.next (h : l.Holds s) (read : s.next = (.ok token, t)) : l.Took token t := by
  have fits := h.fits.next read
  have fresh := TokenStream.ahead_of_next read
  cases h with
  | on none same _ =>
    subst same
    cases TokenStream.scanned_of_next none read with
    | token inside same place =>
      exact ⟨fresh, fits, place, fun _ => same, fun ends => (by cases inside.symm.trans ends),
        fun last => (by subst last; cases inside)⟩
    | lineEnd place =>
      exact ⟨fresh, fits, place, fun inside => (by cases inside), fun _ => rfl, fun last => (by cases last)⟩
    | fileEnd place same again =>
      exact ⟨fresh, fits, place, fun inside => (by cases inside), fun _ => rfl, fun _ => ⟨again, same⟩⟩
  | @back s _ none same _ inside place =>
    rw [TokenStream.next_unread none] at read
    cases read
    exact ⟨fresh, fits, place, fun _ => same, fun ends => (by cases inside.symm.trans ends),
      fun last => (by cases inside.symm.trans (Token.endsStatement_iff.2 (.inr last)))⟩
  | ended ends place _ last =>
    rw [TokenStream.next_unread l.fresh] at read
    cases read
    exact ⟨fresh, fits, place, fun inside => (by cases inside.symm.trans ends), fun _ => rfl, last⟩

theorem Holds.next_error {e : Error} (h : l.Holds s) (read : s.next = (.error e, t)) :
    t.line = l ∧ ∃ cause pos, e = .at_ cause pos ∧ l.At pos := by
  cases h with
  | on none same fits =>
    subst same
    cases TokenStream.scanned_of_next none read with
    | error same place => exact ⟨same, _, _, rfl, place⟩
  | back | ended => cases read

/-- A token that was read can be put back. -/
theorem Took.unread (h : l.Took token t) : l.Holds (t.unread token) := by
  cases ends : token.endsStatement with
  | false => exact .back h.fresh (h.inside ends) h.fits ends h.place
  | true =>
    obtain rfl := h.ended ends
    exact .ended ends h.place h.fits h.last

/-- Behind a token other than the end of the line the line is still being read. -/
theorem Took.line (h : l.Took token t) (more : token.lexeme ≠ .endOfLine) : t.line = l := by
  cases ends : token.endsStatement with
  | false => exact h.inside ends
  | true =>
    obtain rfl := h.ended ends
    exact (h.last ((Token.endsStatement_iff.1 ends).resolve_left more)).same

theorem Took.holds (h : l.Took token t) (more : token.lexeme ≠ .endOfLine) : l.Holds t := .on h.fresh (h.line more) h.fits

end SourceLine

namespace TokenStream

variable {s t u : TokenStream} {token : Token}

/-- The stream `t` goes on from `s`; a token may have been read there and put back. -/
def Resumes (s t : TokenStream) : Prop :=
  t = s ∨ ∃ token u, s.next = (.ok token, u) ∧ token.lexeme ≠ .endOfLine ∧ t = u.unread token

theorem Resumes.refl (s : TokenStream) : s.Resumes s := .inl rfl

theorem Resumes.next (h : s.Resumes t) : t.next = s.next := by
  obtain rfl | ⟨token, u, read, -, rfl⟩ := h
  · rfl
  · rw [next_unread_of_next read, read]

/-- The line that comes next is being read. -/
theorem Resumes.holds (h : s.Resumes t) (fresh : s.ahead = none) (fits : s.Fits) : t.line = s.line ∧ s.line.Holds t := by
  have on : s.line.Holds s := .on fresh rfl fits
  obtain rfl | ⟨token, u, read, more, rfl⟩ := h
  · exact ⟨rfl, on⟩
  · have took := on.next read
    exact ⟨took.line more, took.unread⟩

theorem resumes_of_last {l : SourceLine} (last : l.Last token) (lexeme : token.lexeme = .endOfFile) :
    l.behind.Resumes (l.behind.unread token) :=
  .inr ⟨token, l.behind, last.again, fun feed => (by cases lexeme.symm.trans feed), rfl⟩

/-- Only the ends of lines are read between `s` and `t`. -/
abbrev Empties : TokenStream → TokenStream → Prop :=
  Relation.ReflTransGen fun s t => ∃ pos, s.next = (.ok ⟨.endOfLine, pos⟩, t)

/-- The line is left where it ends. -/
theorem eq_behindLine_of_next {pos : Position} (fresh : s.ahead = none) (read : s.next = (.ok ⟨.endOfLine, pos⟩, t)) :
    t = s.behindLine := by
  cases scanned_of_next fresh read with
  | token inside => cases inside
  | lineEnd => rfl

theorem Empties.fresh (h : s.Empties t) (fresh : s.ahead = none) : t.ahead = none := by
  cases h with
  | refl => exact fresh
  | tail _ read =>
    obtain ⟨pos, read⟩ := read
    exact ahead_of_next read

theorem next_of_lineEnd (fresh : s.ahead = none) (stop : ∀ ch, s.top.rest.head? = some ch → ch = '\n') :
    ∃ token t, s.next = (.ok token, t) ∧ token.endsStatement = true := by
  have idle : s.top.skipBlanks = s.top := Cursor.skipBlanks_eq_self fun ch first => stop ch first ▸ by decide
  rw [next, fresh]
  unfold scan
  dsimp only
  rw [idle]
  split
  · split <;> exact ⟨_, _, rfl, rfl⟩
  · rename_i ch rest characters
    rw [if_pos (stop ch (by rw [characters]; rfl))]
    exact ⟨_, _, rfl, rfl⟩

/-- Behind an error that was met on a line, the error is met again or the line ends; or it was a character that no token
starts with. -/
theorem next_of_error {e : Error} (fresh : s.ahead = none) (h : s.next = (.error e, t)) :
    (∃ c pos, e = .at_ (.unexpectedCharacter c) pos) ∨ t.next = (.error e, t)
      ∨ ∃ token u, t.next = (.ok token, u) ∧ token.endsStatement = true := by
  have idle := s.top.skipBlanks_skipBlanks
  rw [next, fresh] at h
  unfold scan at h
  dsimp only at h
  split at h
  · split at h <;> cases h
  · rename_i ch rest characters
    split at h
    · cases h
    · rename_i inside
      cases found : (Scan.lexeme ch rest).result with
      | ok lexeme =>
        rw [found] at h
        cases h
      | error cause =>
        have refuses := Scan.refuses_lexeme found
        rw [found] at h
        generalize shape : Scan.lexeme ch rest = lexeme at h found refuses
        cases refuses with
        | stays =>
          cases found
          cases h
          refine .inr (.inl ?_)
          show next { s with top := s.top.skipBlanks } = _
          rw [next, fresh]
          unfold scan
          dsimp only
          rw [idle, characters]
          dsimp only
          rw [if_neg inside, shape]
        | lineEnd =>
          cases h
          refine .inr (.inr (next_of_lineEnd fresh fun c first => ?_))
          rw [← characters] at first
          obtain ⟨rest, characters⟩ := List.head?_eq_some_iff.1 first
          exact Cursor.eq_of_lineEnd characters
        | character =>
          cases found
          cases h
          exact .inl ⟨ch, _, rfl⟩

end TokenStream

/-- The stream goes on behind the line, with no more than empty lines between. -/
def SourceLine.Precedes (l : SourceLine) (t : TokenStream) : Prop := ∃ s, l.behind.Empties s ∧ s.Resumes t

/-! ### Skipping a line -/

namespace SourceLine

variable {l : SourceLine} {s t : TokenStream} {token : Token}

/-- Skipping the rest of a line ends behind it. Errors on the way are passed over. -/
theorem resumes_skipLineWithin (n : Nat) (h : l.Holds s) (enough : s.weigh (fun _ => 1) < n) :
    l.behind.Resumes (s.skipLineWithin n) := by
  have positive (d : Nat) : 1 ≤ (fun _ => 1 : Nat → Nat) d := Nat.le_refl 1
  induction n generalizing s with
  | zero => exact absurd enough (Nat.not_lt_zero _)
  | succ n ih =>
    rw [TokenStream.skipLineWithin]
    cases read : s.next with
    | mk r t =>
      cases r with
      | error e =>
        obtain ⟨same, -⟩ := h.next_error read
        have lighter := TokenStream.weigh_lineEnd_lt positive read
        have skipped : ({ t with top := t.top.lineEnd } : TokenStream).line = t.line :=
          TokenStream.line_congr rfl rfl t.top.lineEnd_lineEnd rfl
        have fits := (h.fits.next read).onward (.single .skip)
        have fresh : t.ahead = none := TokenStream.ahead_of_next read
        exact ih (.on fresh (skipped.trans same) fits) (by omega)
      | ok token =>
        have took := h.next read
        have lighter := TokenStream.weigh_next positive read
        dsimp only
        split
        · rename_i last
          obtain rfl := took.ended (Token.endsStatement_iff.2 (.inr last))
          exact TokenStream.resumes_of_last (took.last last) last
        · rename_i feed
          obtain rfl := took.ended (Token.endsStatement_iff.2 (.inl feed))
          exact .refl _
        · rename_i more feed
          rw [Token.weight_eq_one more] at lighter
          exact ih (took.holds feed) (by omega)

/-- Skipping the line leads behind it. -/
theorem resumes_skipLine (h : l.Holds s) : l.behind.Resumes s.skipLine :=
  resumes_skipLineWithin s.budget h h.fits.weigh_lt_budget

end SourceLine

end Asm65
