import Asm65.Proofs.SourceLines

/-!
# The start of a line

Cursors keep their positions: the line is one more than the line feeds before the cursor, and the column one more than
the bytes since the last of them (`Cursor.Stands`). So the token that is read first behind a line has the position of the
first character of its line that is no blank (`opensLine_of_next`).
-/

namespace Asm65
set_option autoImplicit false

/-! ### Rows of a text -/

namespace Text

/-- What is added behind the last separator, without another one, stays behind it. -/
theorem reverse_takeWhile_append {α : Type} [BEq α] [LawfulBEq α] {separator : α} (as : List α) {bs : List α}
    (line : separator ∉ bs) : ((as ++ bs).reverse.takeWhile (· != separator)).reverse
      = (as.reverse.takeWhile (· != separator)).reverse ++ bs := by
  have passed : ∀ b ∈ bs.reverse, (b != separator) = true := fun b mem =>
    bne_iff_ne.2 fun same => line (same ▸ List.mem_reverse.1 mem)
  rw [List.reverse_append, List.takeWhile_append_of_pos passed, List.reverse_append, List.reverse_reverse]

/-- What follows the last line feed. -/
def lastLine (cs : List Char) : List Char := (cs.reverse.takeWhile (· != '\n')).reverse

theorem lastLine_append (cs : List Char) {ds : List Char} (line : '\n' ∉ ds) :
    lastLine (cs ++ ds) = lastLine cs ++ ds := reverse_takeWhile_append cs line

theorem lastLine_feed (cs : List Char) : lastLine (cs ++ ['\n']) = [] := by
  rw [lastLine, List.reverse_append]
  rfl

theorem length_splitOn (cs : List Char) : (cs.splitOn '\n').length = cs.count '\n' + 1 := by
  induction cs with
  | nil => rfl
  | cons c cs ih =>
    rw [List.splitOn_cons_eq_if_modifyHead, List.count_cons]
    split
    · rw [List.length_cons, ih]
    · rw [List.length_modifyHead, ih, Nat.add_zero]

/-- The first line of a text is what stands in front of its first line feed. -/
theorem head_splitOn (cs : List Char) : (cs.splitOn '\n')[0]? = some (cs.takeWhile (· != '\n')) := by
  induction cs with
  | nil => rfl
  | cons c cs ih =>
    rw [List.splitOn_cons_eq_if_modifyHead, List.takeWhile_cons, bne]
    split
    · rename_i feed
      rw [feed]
      rfl
    · rename_i other
      rw [Bool.not_eq_true] at other
      cases rows : cs.splitOn '\n' with
      | nil => exact absurd rows (List.splitOn_ne_nil _ _)
      | cons row rest =>
        rw [rows] at ih
        cases ih
        rw [other]
        rfl

/-- The row at whose start a part of the text ends. -/
theorem getElem?_splitOn {before : List Char} (start : lastLine before = []) (after : List Char) :
    ((before ++ after).splitOn '\n')[before.count '\n']? = some (after.takeWhile (· != '\n')) := by
  obtain rfl | ⟨cs, c, rfl⟩ := List.eq_nil_or_concat before
  · exact head_splitOn after
  · rw [List.concat_eq_append] at start ⊢
    have feed : c = '\n' := by
      refine Classical.byContradiction fun other => ?_
      rw [lastLine_append cs fun mem => other (List.mem_singleton.1 mem).symm] at start
      cases (List.append_eq_nil_iff.1 start).2
    subst feed
    rw [List.append_assoc, List.singleton_append, List.splitOn_append_cons_self, List.count_append,
      List.count_singleton_self, List.getElem?_append_right (by rw [length_splitOn]), length_splitOn, Nat.sub_self]
    exact head_splitOn after

end Text

/-- The cursor stands behind a part of its text: its line is one more than the line feeds in the part, and its column one
more than the bytes behind the last of them. -/
structure Cursor.Stands (c : Cursor) (before : List Char) : Prop where
  text : c.text.toList = before ++ c.rest
  line : c.line = before.count '\n' + 1
  column : c.column = Text.utf8Length (Text.lastLine before) + 1

namespace Cursor

variable {c : Cursor} {before : List Char} {n : Nat}

theorem stands_ofText (file : Nat) (text : String) : (ofText file text).Stands [] := ⟨rfl, rfl, rfl⟩

theorem Stands.advance (h : c.Stands before) (line : '\n' ∉ c.rest.take n) :
    (c.advance n).Stands (before ++ c.rest.take n) := by
  refine ⟨?_, ?_, ?_⟩
  · rw [List.append_assoc, show (c.advance n).rest = c.rest.drop n from rfl, List.take_append_drop]
    exact h.text
  · rw [List.count_append, List.count_eq_zero_of_not_mem line]
    exact h.line
  · rw [Text.lastLine_append before line, Text.utf8Length_append]
    show c.column + _ = _
    rw [h.column]
    omega

theorem Stands.nextLine (h : c.Stands before) {rest : List Char} (feed : c.rest = '\n' :: rest) :
    c.nextLine.Stands (before ++ ['\n']) := by
  refine ⟨?_, ?_, ?_⟩
  · rw [List.append_assoc, show c.nextLine.rest = c.rest.drop 1 from rfl, feed]
    exact h.text.trans (by rw [feed]; rfl)
  · rw [List.count_append]
    exact congrArg (· + 1) h.line
  · rw [Text.lastLine_feed]
    rfl

theorem Stands.skipBlanks (h : c.Stands before) : ∃ before, c.skipBlanks.Stands before := by
  have blanks := h.advance (not_mem_take_takeWhile (p := Scan.isBlank) rfl c.rest)
  unfold Cursor.skipBlanks
  dsimp only
  split
  · exact ⟨_, blanks.advance (not_mem_take_takeWhile rfl _)⟩
  · exact ⟨_, blanks⟩

/-- Nothing is left of a line that is not at its start. -/
def AtLine (c : Cursor) : Prop := c.column = 1 ∨ c.rest = []

end Cursor

/-- The position is that of the first character of its line that is no blank. -/
def SourceTable.opensLine (files : SourceTable) (pos : Position) : Bool :=
  (files.text? pos.file).any fun text =>
    (text.toList.splitOn '\n')[pos.line - 1]?.any fun row => pos.column == (row.takeWhile Scan.isBlank).length + 1

theorem Cursor.Stands.lastLine_eq_nil {c : Cursor} {before : List Char} (h : c.Stands before) (first : c.column = 1) :
    Text.lastLine before = [] := by
  have none := h.column.symm.trans first
  cases last : Text.lastLine before with
  | nil => rfl
  | cons ch cs =>
    have size := ch.utf8Size_pos
    rw [last, Text.utf8Length_cons] at none
    omega

/-- A cursor at the start of a line that skips blanks comes to the first character of the line. -/
theorem Cursor.Stands.opensLine {files : SourceTable} {c : Cursor} {before rest : List Char} {ch : Char}
    (h : c.Stands before) (text : files.text? c.file = some c.text ∨ c.text = "") (start : c.AtLine)
    (characters : c.skipBlanks.rest = ch :: rest) (inside : ch ≠ '\n') : files.opensLine c.skipBlanks.pos = true := by
  have more : c.rest ≠ [] := by
    intro none
    rw [skipBlanks_eq_self (by simp [none]), none] at characters
    cases characters
  have column : c.column = 1 := start.resolve_right more
  have found : files.text? c.file = some c.text := by
    refine text.resolve_right fun empty => more ?_
    have whole := h.text
    rw [empty] at whole
    exact (List.append_eq_nil_iff.1 whole.symm).2
  have row := Text.getElem?_splitOn (h.lastLine_eq_nil column) c.rest
  rw [← h.text, ← Nat.add_sub_cancel (n := before.count '\n') (m := 1), ← h.line] at row
  -- blanks end no line
  have blanks : (c.rest.takeWhile (· != '\n')).takeWhile Scan.isBlank = c.rest.takeWhile Scan.isBlank := by
    rw [List.takeWhile_takeWhile]
    refine congrArg (List.takeWhile · c.rest) (funext fun d => ?_)
    cases blank : Scan.isBlank d with
    | false => simp
    | true =>
      have other : d ≠ '\n' := fun feed => by rw [feed] at blank; cases blank
      simpa using other
  simp only [SourceTable.opensLine, pos, file_skipBlanks, line_skipBlanks, column_skipBlanks characters inside, found,
    row, Option.any_some, blanks, column, Nat.add_comm, beq_self_eq_true]

namespace TokenStream

variable {files : SourceTable} {s t : TokenStream} {token : Token} {r : Except Error Token}

/-- The cursors stand in the texts of their files. -/
structure Stood (files : SourceTable) (s : TokenStream) : Prop where
  texts : ∀ c ∈ s.cursors, files.text? c.file = some c.text ∨ c.text = ""
  stands : ∀ c ∈ s.cursors, ∃ before, c.Stands before

/-- The same, and the files around the innermost one are at the start of a line. -/
structure Sits (files : SourceTable) (s : TokenStream) : Prop extends Stood files s where
  below : ∀ c ∈ s.below, c.AtLine

/-- The stream is at the start of a line. -/
structure Starts (files : SourceTable) (s : TokenStream) : Prop where
  sits : s.Sits files
  fresh : s.ahead = none
  start : s.top.AtLine

namespace Stood

theorem ofFile (files : SourceTable) (root : Nat) : Stood files (ofFile files root) := by
  refine ⟨fun c mem => ?_, fun c mem => ?_⟩
  · obtain rfl := List.mem_singleton.1 mem
    show files.text? root = some ((files.text? root).getD "") ∨ (files.text? root).getD "" = ""
    cases files.text? root with
    | none => exact .inr rfl
    | some text => exact .inl rfl
  · obtain rfl := List.mem_singleton.1 mem
    exact ⟨[], Cursor.stands_ofText ..⟩

/-- The innermost file is read on. -/
theorem withTop (h : s.Stood files) {c : Cursor} {ahead : Option Token} (later : s.top.Later c)
    (stands : ∃ before, c.Stands before) : Stood files ⟨c, s.below, ahead⟩ := by
  refine ⟨fun d mem => ?_, fun d mem => ?_⟩
  · obtain rfl | mem := List.mem_cons.1 mem
    · rw [later.file, later.text]
      exact h.texts _ List.mem_cons_self
    · exact h.texts d (List.mem_cons_of_mem _ mem)
  · obtain rfl | mem := List.mem_cons.1 mem
    · exact stands
    · exact h.stands d (List.mem_cons_of_mem _ mem)

/-- The innermost file is left. -/
theorem pop (h : s.Stood files) {outer : Cursor} {below : List Cursor} (stack : s.below = outer :: below)
    {ahead : Option Token} : Stood files ⟨outer, below, ahead⟩ := by
  refine ⟨fun d mem => h.texts d ?_, fun d mem => h.stands d ?_⟩ <;> exact List.mem_cons_of_mem _ (stack ▸ mem)

/-- Reading a token leaves every cursor in the text of its file. -/
theorem next (h : s.Stood files) (read : s.next = (r, t)) : t.Stood files := by
  obtain ⟨before, stands⟩ := h.stands s.top List.mem_cons_self
  obtain ⟨before, stands⟩ := stands.skipBlanks
  have blanks := s.top.later_skipBlanks
  unfold TokenStream.next at read
  split at read
  · cases read
    exact ⟨h.texts, h.stands⟩
  · unfold scan at read
    dsimp only at read
    split at read
    · split at read
      · cases read
        exact h.withTop blanks ⟨_, stands⟩
      · rename_i stack
        cases read
        exact h.pop stack
    · rename_i ch rest characters
      split at read
      · rename_i feed
        subst feed
        cases read
        exact h.withTop (blanks.trans (Cursor.later_nextLine _)) ⟨_, stands.nextLine characters⟩
      · rename_i inside
        have inline := Scan.inline_lexeme inside rest
        rw [Scan.Found.Inline, ← characters] at inline
        cases read
        exact h.withTop (blanks.trans (Cursor.later_advance _ _)) ⟨_, stands.advance inline⟩

/-- A file is read from its start. -/
theorem push (h : s.Stood files) {id : Nat} {pos : Position} (pushed : s.pushFile files id pos = .ok t) :
    t.Stood files := by
  obtain ⟨-, text, found, rfl⟩ := of_pushFile pushed
  refine ⟨fun c mem => ?_, fun c mem => ?_⟩
  · obtain rfl | mem := List.mem_cons.1 mem
    · exact .inl found
    · exact h.texts c mem
  · obtain rfl | mem := List.mem_cons.1 mem
    · exact ⟨[], Cursor.stands_ofText ..⟩
    · exact h.stands c mem

end Stood

namespace Sits

theorem ofFile (files : SourceTable) (root : Nat) : Sits files (ofFile files root) :=
  ⟨.ofFile files root, fun c mem => by cases mem⟩

theorem withTop (h : s.Sits files) {c : Cursor} {ahead : Option Token} (later : s.top.Later c)
    (stands : ∃ before, c.Stands before) : Sits files ⟨c, s.below, ahead⟩ :=
  ⟨h.toStood.withTop later stands, h.below⟩

theorem pop (h : s.Sits files) {outer : Cursor} {below : List Cursor} (stack : s.below = outer :: below)
    {ahead : Option Token} : Sits files ⟨outer, below, ahead⟩ :=
  ⟨h.toStood.pop stack, fun d mem => h.below d (stack ▸ List.mem_cons_of_mem _ mem)⟩

theorem unread (h : s.Sits files) (token : Token) : (s.unread token).Sits files := ⟨⟨h.texts, h.stands⟩, h.below⟩

theorem next (h : s.Sits files) (read : s.next = (r, t)) : t.Sits files := by
  refine ⟨h.toStood.next read, fun d mem => h.below d ?_⟩
  obtain ⟨c, same, -⟩ | same := cursors_of_next read
  · exact (List.cons.inj same).2 ▸ mem
  · exact same ▸ List.mem_cons_of_mem _ mem

/-- Behind a line another one starts. -/
theorem behindLine (h : s.Sits files) : s.behindLine.Starts files := by
  obtain ⟨before, stands⟩ := h.stands s.top List.mem_cons_self
  have stands : ∃ before, s.top.lineEnd.Stands before := ⟨_, stands.advance (Cursor.not_mem_take_takeWhile rfl _)⟩
  have later := s.top.later_lineEnd
  unfold TokenStream.behindLine
  dsimp only
  split
  · rename_i ch rest characters
    obtain rfl := Cursor.eq_of_lineEnd characters
    obtain ⟨before, stands⟩ := stands
    exact ⟨h.withTop (later.trans (Cursor.later_nextLine _)) ⟨_, stands.nextLine characters⟩, rfl, .inl rfl⟩
  · rename_i none
    split
    · rename_i alone
      have top : Sits files ⟨s.top.lineEnd, s.below, .none⟩ := h.withTop later stands
      rw [alone] at top
      exact ⟨top, rfl, .inr none⟩
    · rename_i outer below stack
      exact ⟨h.pop stack, rfl, h.below outer (stack ▸ List.mem_cons_self)⟩

theorem mono (h : s.Sits files) {more : SourceTable} (within : files.Within more) : s.Sits more :=
  ⟨⟨fun c mem => (h.texts c mem).imp_left within.text?, h.stands⟩, h.below⟩

theorem fits (h : s.Sits files) : s.Fits := by
  intro c mem
  obtain ⟨before, stands⟩ := h.stands c mem
  refine Nat.le_trans ?_ (length_le_utf8ByteSize c.text)
  rw [stands.text, List.length_append]
  exact Nat.le_add_left ..

end Sits

namespace Starts

theorem ofFile (files : SourceTable) (root : Nat) : Starts files (ofFile files root) :=
  ⟨.ofFile files root, rfl, .inl rfl⟩

/-- A file is included at the start of a line. -/
theorem push (h : s.Starts files) {id : Nat} {pos : Position} (pushed : s.pushFile files id pos = .ok t) :
    t.Starts files := by
  have stood := h.sits.toStood.push pushed
  obtain ⟨-, text, found, rfl⟩ := of_pushFile pushed
  refine ⟨⟨stood, fun c mem => ?_⟩, h.fresh, .inl rfl⟩
  obtain rfl | mem := List.mem_cons.1 mem
  · exact h.start
  · exact h.sits.below c mem

/-- Empty lines lead from the start of a line to that of another. -/
theorem empties (h : s.Starts files) (k : s.Empties t) : t.Starts files := by
  induction k with
  | refl => exact h
  | tail _ read ih =>
    obtain ⟨pos, read⟩ := read
    rw [eq_behindLine_of_next ih.fresh read]
    exact ih.sits.behindLine

/-- The first token that is read at the start of a line is the first of the line. -/
theorem opensLine_of_next (h : s.Starts files) (read : s.next = (.ok token, t)) (inside : token.endsStatement = false) :
    files.opensLine token.pos = true := by
  obtain ⟨before, stands⟩ := h.sits.stands s.top List.mem_cons_self
  have text := h.sits.texts s.top List.mem_cons_self
  rw [TokenStream.next, h.fresh] at read
  unfold scan at read
  dsimp only at read
  split at read
  · split at read <;> cases read <;> cases inside
  · rename_i ch rest characters
    split at read
    · cases read
      cases inside
    · rename_i other
      have place : token.pos = s.top.skipBlanks.pos := by
        cases found : (Scan.lexeme ch rest).result with
        | ok l => rw [found] at read; cases read; rfl
        | error cause => rw [found] at read; cases read
      rw [place]
      exact stands.opensLine text h.start characters other

end Starts

end TokenStream

end Asm65
