import Asm65.Proofs.LineStarts
import Mathlib.Data.List.Induction

/-!
# Positions

Whatever a stream is asked to do, its cursors stand between two characters of their texts, with the line and the column
that the bytes before them give. A line and a column are reached at one place of a text only, so two tokens that are
scanned at different places have different positions.
-/

namespace Asm65
set_option autoImplicit false

/-! ### Bytes of a text -/

namespace Text

variable {cs ds : List Char} {c : Char}

/-- The bytes of the characters. -/
def bytes (cs : List Char) : List UInt8 := cs.flatMap String.utf8EncodeChar

theorem toList_toUTF8 (text : String) : text.toUTF8.data.toList = bytes text.toList := by
  rw [String.toUTF8, ← String.utf8Encode_toList, List.utf8Encode, List.data_toByteArray]
  rfl

theorem length_bytes (cs : List Char) : (bytes cs).length = utf8Length cs := by
  induction cs with
  | nil => rfl
  | cons c cs ih =>
    rw [bytes, List.flatMap_cons, List.length_append, String.length_utf8EncodeChar, utf8Length_cons, ← ih]
    rfl

/-- Only a line feed has the byte of a line feed. -/
theorem feed_mem_iff (c : Char) : 0x0A ∈ String.utf8EncodeChar c ↔ c = '\n' := by
  constructor
  · intro mem
    have byte {n : Nat} (same : (0x0A : UInt8) = UInt8.ofNat n) : n % 256 = 10 := by
      rw [← UInt8.toNat_ofNat', ← same]
      rfl
    refine Char.toNat_inj.1 ?_
    show c.val.toNat = 10
    unfold String.utf8EncodeChar at mem
    dsimp only at mem
    split at mem
    · have := byte (List.mem_singleton.1 mem)
      omega
    · -- the other bytes of a character have their highest bit set
      split at mem
      · simp only [List.mem_cons, List.not_mem_nil, or_false] at mem
        obtain same | same := mem <;> have := byte same <;> omega
      · split at mem <;> simp only [List.mem_cons, List.not_mem_nil, or_false] at mem
        · obtain same | same | same := mem <;> have := byte same <;> omega
        · obtain same | same | same | same := mem <;> have := byte same <;> omega
  · rintro rfl
    decide

theorem bytes_append (cs ds : List Char) : bytes (cs ++ ds) = bytes cs ++ bytes ds := List.flatMap_append

theorem count_bytes (cs : List Char) : (bytes cs).count 0x0A = cs.count '\n' := by
  induction cs with
  | nil => rfl
  | cons c cs ih =>
    rw [← List.singleton_append, bytes_append, List.count_append, List.count_append, ih]
    congr 1
    by_cases feed : c = '\n'
    · rw [feed]
      decide
    · rw [List.count_eq_zero_of_not_mem, List.count_eq_zero_of_not_mem]
      · exact fun mem => feed (List.mem_singleton.1 mem).symm
      · rw [bytes, List.flatMap_singleton, feed_mem_iff]
        exact feed

/-- The bytes behind the last line feed. -/
def lastBytes (bs : List UInt8) : List UInt8 := (bs.reverse.takeWhile (· != 0x0A)).reverse

theorem lastBytes_bytes (cs : List Char) : lastBytes (bytes cs) = bytes (lastLine cs) := by
  induction cs using List.reverseRecOn with
  | nil => rfl
  | append_singleton cs c ih =>
    rw [bytes_append]
    by_cases feed : c = '\n'
    · rw [feed, lastLine_feed, lastBytes, List.reverse_append]
      rfl
    · have inside : 0x0A ∉ bytes [c] := by
        rw [bytes, List.flatMap_singleton, feed_mem_iff]
        exact feed
      have line : '\n' ∉ [c] := fun mem => feed (List.mem_singleton.1 mem).symm
      rw [lastBytes, reverse_takeWhile_append _ inside, ← lastBytes, ih, lastLine_append cs line, bytes_append]

theorem utf8ByteSize_eq (text : String) : text.utf8ByteSize = utf8Length text.toList := by
  rw [← length_bytes, ← toList_toUTF8]
  rfl

/-- Each line feed and each character behind the last one takes a byte. -/
theorem count_add_le (cs : List Char) : cs.count '\n' + utf8Length (lastLine cs) ≤ utf8Length cs := by
  induction cs using List.reverseRecOn with
  | nil => exact Nat.le_refl _
  | append_singleton cs c ih =>
    rw [List.count_append, utf8Length_append]
    by_cases feed : c = '\n'
    · rw [feed, lastLine_feed, List.count_singleton_self]
      have feed : utf8Length ['\n'] = 1 := rfl
      have none : utf8Length [] = 0 := rfl
      omega
    · have line : '\n' ∉ [c] := fun mem => feed (List.mem_singleton.1 mem).symm
      rw [lastLine_append cs line, List.count_eq_zero_of_not_mem line, utf8Length_append]
      omega

/-- A line and a column are reached once. -/
theorem eq_of_prefix {text : List Char} (h : cs <+: text) (k : ds <+: text) (line : cs.count '\n' = ds.count '\n')
    (column : utf8Length (lastLine cs) = utf8Length (lastLine ds)) : cs = ds := by
  have longer {cs ds : List Char} (within : cs <+: ds) (line : cs.count '\n' = ds.count '\n')
      (column : utf8Length (lastLine cs) = utf8Length (lastLine ds)) : cs = ds := by
    obtain ⟨more, rfl⟩ := within
    rw [List.count_append] at line
    rw [lastLine_append cs (List.count_eq_zero.1 (by omega)), utf8Length_append] at column
    cases more with
    | nil => rw [List.append_nil]
    | cons c more =>
      have size := c.utf8Size_pos
      rw [utf8Length_cons] at column
      omega
  obtain within | within := List.prefix_or_prefix_of_prefix h k
  · exact longer within line column
  · exact (longer within line.symm column.symm).symm

end Text

/-! ### Cursors -/

namespace Cursor

variable {c d : Cursor} {before : List Char}

/-- How many bytes of the text are before the cursor. -/
def offset (c : Cursor) : Nat := c.text.utf8ByteSize - Text.utf8Length c.rest

/-- The bytes of the text before the cursor. -/
def passed (c : Cursor) : List UInt8 := c.text.toUTF8.data.toList.take c.offset

/-- The cursor is between two characters of its text, on the line and at the column that the bytes before it give. -/
structure Accurate (c : Cursor) : Prop where
  boundary : (⟨c.offset⟩ : String.Pos.Raw).IsValid c.text
  rest : c.text.toUTF8.data.toList.drop c.offset = Text.bytes c.rest
  line : c.line = 1 + c.passed.count 0x0A
  column : c.column = 1 + (Text.lastBytes c.passed).length
  /-- Neither counter is more than one above the size of the text. -/
  bound : c.line + c.column ≤ c.text.utf8ByteSize + 2

theorem Stands.offset_eq (h : c.Stands before) : c.offset = Text.utf8Length before := by
  rw [offset, Text.utf8ByteSize_eq, h.text, Text.utf8Length_append, Nat.add_sub_cancel]

theorem Stands.bytes_eq (h : c.Stands before) :
    c.passed = Text.bytes before ∧ c.text.toUTF8.data.toList.drop c.offset = Text.bytes c.rest := by
  rw [passed, Text.toList_toUTF8, h.text, Text.bytes_append, h.offset_eq, ← Text.length_bytes]
  exact ⟨List.take_left, List.drop_left⟩

theorem Stands.accurate (h : c.Stands before) : c.Accurate := by
  obtain ⟨passed, rest⟩ := h.bytes_eq
  refine ⟨?_, rest, ?_, ?_, ?_⟩
  · refine String.Pos.Raw.isValid_iff_exists_append.2 ⟨.ofList before, .ofList c.rest, ?_, ?_⟩
    · rw [← String.ofList_append, ← h.text, String.ofList_toList]
    · rw [h.offset_eq, String.rawEndPos, Text.utf8ByteSize_eq, String.toList_ofList]
  · rw [passed, Text.count_bytes, h.line, Nat.add_comm]
  · rw [passed, Text.lastBytes_bytes, Text.length_bytes, h.column, Nat.add_comm]
  · have counted := Text.count_add_le before
    rw [h.line, h.column, Text.utf8ByteSize_eq, h.text, Text.utf8Length_append]
    omega

end Cursor

namespace TokenStream

variable {files : SourceTable} {s t : TokenStream} {token : Token}

/-! ### Calls -/

/-- What a stream can be asked for. -/
inductive Call where
  | next
  | peek
  | unread (token : Token)
  | skipLine
  | pushFile (file : Nat) (pos : Position)

/-- The stream after a call; a file that cannot be read leaves it as it is. -/
def Call.perform (files : SourceTable) (s : TokenStream) : Call → TokenStream
  | .next => s.next.2
  | .peek => s.peek.2
  | .unread token => s.unread token
  | .skipLine => s.skipLine
  | .pushFile file pos => (s.pushFile files file pos).toOption.getD s

/-- The tokens of a file after a sequence of calls. -/
def after (files : SourceTable) (root : Nat) (calls : List Call) : TokenStream :=
  calls.foldl (fun s call => call.perform files s) (ofFile files root)

namespace Stood

theorem peek (h : s.Stood files) : s.peek.2.Stood files := by
  have next : s.next.2.Stood files := h.next rfl
  unfold TokenStream.peek
  cases read : s.next with
  | mk r t =>
    rw [read] at next
    cases r with
    | ok token => exact ⟨next.texts, next.stands⟩
    | error e => exact next

theorem lineEnd (h : s.Stood files) : Stood files { s with top := s.top.lineEnd } := by
  obtain ⟨before, stands⟩ := h.stands s.top List.mem_cons_self
  exact h.withTop s.top.later_lineEnd ⟨_, stands.advance (Cursor.not_mem_take_takeWhile rfl _)⟩

/-- Skipping a line leaves every cursor in the text of its file. -/
theorem skipLineWithin (h : s.Stood files) (n : Nat) : (skipLineWithin n s).Stood files := by
  induction n generalizing s with
  | zero => exact h
  | succ n ih =>
    have next : s.next.2.Stood files := h.next rfl
    rw [TokenStream.skipLineWithin]
    cases read : s.next with
    | mk r t =>
      rw [read] at next
      cases r with
      | ok token =>
        dsimp only
        split
        · exact ⟨next.texts, next.stands⟩
        · exact next
        · exact ih next
      | error e => exact ih next.lineEnd

theorem perform (h : s.Stood files) (call : Call) : (call.perform files s).Stood files := by
  cases call with
  | next => exact h.next rfl
  | peek => exact h.peek
  | unread token => exact ⟨h.texts, h.stands⟩
  | skipLine => exact h.skipLineWithin _
  | pushFile file pos =>
    show Stood files ((s.pushFile files file pos).toOption.getD s)
    cases pushed : s.pushFile files file pos with
    | ok t => exact h.push pushed
    | error e => exact h

theorem after (files : SourceTable) (root : Nat) (calls : List Call) : (after files root calls).Stood files := by
  unfold TokenStream.after
  exact List.foldlRecOn calls _ (ofFile files root) fun s h call _ => h.perform call

end Stood

/-! ### Tokens -/

/-- The file and the offset at which the next token is scanned. -/
def place (s : TokenStream) : Nat × Nat := (s.top.skipBlanks.file, s.top.skipBlanks.offset)

/-- Where no token was put back, the next one has the position of the first character behind the blanks. -/
theorem pos_of_next (fresh : s.ahead = none) (read : s.next = (.ok token, t)) : token.pos = s.top.skipBlanks.pos := by
  rw [next, fresh] at read
  unfold scan at read
  dsimp only at read
  split at read
  · split at read <;> cases read <;> rfl
  · rename_i ch rest _
    split at read
    · cases read
      rfl
    · cases found : (Scan.lexeme ch rest).result with
      | ok l =>
        rw [found] at read
        cases read
        rfl
      | error cause =>
        rw [found] at read
        cases read

/-- Two places with one position are one place. -/
theorem Stood.place_eq (h : s.Stood files) (k : t.Stood files) (same : s.top.skipBlanks.pos = t.top.skipBlanks.pos) :
    s.place = t.place := by
  have file : s.top.skipBlanks.file = t.top.skipBlanks.file := congrArg Position.file same
  obtain ⟨cs, stands⟩ := h.stands s.top List.mem_cons_self
  obtain ⟨cs, stands⟩ := stands.skipBlanks
  obtain ⟨ds, stands'⟩ := k.stands t.top List.mem_cons_self
  obtain ⟨ds, stands'⟩ := stands'.skipBlanks
  have line : cs.count '\n' = ds.count '\n' := by
    have same := congrArg Position.line same
    exact Nat.add_right_cancel ((stands.line.symm.trans same).trans stands'.line)
  have column : Text.utf8Length (Text.lastLine cs) = Text.utf8Length (Text.lastLine ds) := by
    have same := congrArg Position.column same
    exact Nat.add_right_cancel ((stands.column.symm.trans same).trans stands'.column)
  have text : ∃ text, cs <+: text ∧ ds <+: text := by
    have own : cs <+: s.top.text.toList := ⟨_, (text_skipBlanks s.top ▸ stands.text).symm⟩
    have own' : ds <+: t.top.text.toList := ⟨_, (text_skipBlanks t.top ▸ stands'.text).symm⟩
    obtain found | empty := h.texts s.top List.mem_cons_self
    · obtain found' | empty := k.texts t.top List.mem_cons_self
      · rw [Cursor.file_skipBlanks, Cursor.file_skipBlanks] at file
        rw [file, found'] at found
        exact ⟨_, own, Option.some.inj found ▸ own'⟩
      · rw [empty] at own'
        exact ⟨_, own, List.prefix_nil.1 own' ▸ List.nil_prefix⟩
    · rw [empty] at own
      exact ⟨_, List.prefix_nil.1 own ▸ List.nil_prefix, own'⟩
  obtain ⟨text, within, within'⟩ := text
  rw [place, place, file, stands.offset_eq, stands'.offset_eq, Text.eq_of_prefix within within' line column]

/-- After any calls all cursors are accurate, and tokens scanned at different places have different positions. -/
theorem positions_are_accurate (files : SourceTable) (root : Nat) (calls : List Call) :
    (∀ c ∈ (after files root calls).cursors, c.Accurate)
      ∧ ∀ root' calls' token token' t t',
          (after files root calls).ahead = none → (after files root calls).next = (.ok token, t) →
          (after files root' calls').ahead = none → (after files root' calls').next = (.ok token', t') →
          (after files root calls).place ≠ (after files root' calls').place → token.pos ≠ token'.pos := by
  have stood := Stood.after files root calls
  refine ⟨fun c mem => ?_, fun root' calls' token token' t t' fresh read fresh' read' apart same => apart ?_⟩
  · obtain ⟨before, stands⟩ := stood.stands c mem
    exact stands.accurate
  · rw [pos_of_next fresh read, pos_of_next fresh' read'] at same
    exact stood.place_eq (Stood.after files root' calls') same

def accented : SourceTable := ⟨#[.ofText ⟨"main.asm"⟩ "\"é\" x\n y", .ofText ⟨"other.asm"⟩ " z"]⟩

/-- Another file is opened behind the string of the first one, and its only line is dropped. -/
def detour : List Call := [.next, .pushFile 1 ⟨0, 1, 1⟩, .peek, .skipLine]

/-- Names on two lines, the first of them behind a character of two bytes and a detour. -/
theorem positions_are_accurate_behind_detour :
    (∀ c ∈ (after accented 0 detour).cursors, c.Accurate)
      ∧ ∃ x y t u, (after accented 0 detour).next = (.ok x, t) ∧ (after accented 0 [.skipLine]).next = (.ok y, u)
        ∧ x.pos ≠ y.pos := by
  obtain ⟨accurate, apart⟩ := positions_are_accurate accented 0 detour
  have first : (after accented 0 detour).Yields [⟨.identifier "x", 0, 1, 6⟩] := by decide +kernel
  have second : (after accented 0 [.skipLine]).Yields [⟨.identifier "y", 0, 2, 2⟩] := by decide +kernel
  obtain ⟨t, read, -⟩ := first.next
  obtain ⟨u, read', -⟩ := second.next
  refine ⟨accurate, _, _, t, u, read, read', apart 0 [.skipLine] _ _ t u ?_ read ?_ read' ?_⟩ <;> decide +kernel

end TokenStream

end Asm65
