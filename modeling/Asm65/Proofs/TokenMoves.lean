import Asm65.Proofs.TokenSupply
import Mathlib.Data.List.Perm.Subperm
import Mathlib.Data.List.TakeWhile
import Mathlib.Logic.Relation

/-!
# Moves of a token stream

Reading takes tokens, looks at one and puts it back, or skips to the end of a line. It goes on in the innermost file, or
leaves that file for the one below, so the files on the stack stay different files of the table. Only an inclusion adds
a file, and it is read at the end of a line: the character that ends the line pays for the whole file, if it weighs more
than the characters of the files above it.
-/

namespace Asm65
set_option autoImplicit false

/-! ### Strings stay within their line -/

namespace Scan

/-- The characters of a string, with the closing quote, are in front of the end of the line. -/
theorem exists_of_stringBody {text : List Char} {n m : Nat} {acc cs : List Char}
    (h : stringBody? text n acc = some (m, cs)) :
    ∃ inside after, text = inside ++ after ∧ m = n + inside.length ∧ '\n' ∉ inside := by
  fun_induction stringBody? text n acc with
  | case1 rest n acc =>
    cases h
    exact ⟨['"'], rest, rfl, rfl, by decide⟩
  | case2 | case3 | case5 | case7 => cases h
  | case4 c rest n acc other ih =>
    obtain ⟨inside, after, rfl, rfl, line⟩ := ih h
    refine ⟨'\\' :: c :: inside, after, rfl, by simp only [List.length_cons]; omega, ?_⟩
    simp only [List.mem_cons, not_or]
    exact ⟨by decide, fun same => other same.symm, line⟩
  | case6 c rest n acc _ other _ _ ih =>
    obtain ⟨inside, after, rfl, rfl, line⟩ := ih h
    refine ⟨c :: inside, after, rfl, by simp only [List.length_cons]; omega, ?_⟩
    simp only [List.mem_cons, not_or]
    exact ⟨fun same => other same.symm, line⟩

/-- No lexeme ends a statement, and only what starts with a quote is a string. -/
structure Found.Within (c : Char) (rest : List Char) (found : Found) : Prop where
  inside {l : Lexeme} (h : found.result = .ok l) : l.endsStatement = false
  quoted {name : String} (h : found.result = .ok (.string name)) : c = '"' ∧ found = quotedString rest

theorem within_of_error {c : Char} {rest : List Char} {n : Nat} {cause : Cause} :
    (⟨n, .error cause⟩ : Found).Within c rest := by
  constructor <;> intro _ h <;> cases h

theorem within_of_ok {c : Char} {rest : List Char} {n : Nat} {l : Lexeme} (inside : l.endsStatement = false)
    (other : ∀ name, l ≠ .string name) : (⟨n, .ok l⟩ : Found).Within c rest := by
  constructor <;> intro _ h <;> cases h
  · exact inside
  · exact absurd rfl (other _)

theorem within_numeral {c : Char} {rest text : List Char} {radix mark : Nat} {found : Found}
    (h : numeral? radix mark text = some found) : found.Within c rest := by
  unfold numeral? at h
  dsimp only at h
  split at h
  · cases h
  · split at h <;> cases h
    · exact within_of_ok rfl (fun _ h => by cases h)
    · exact within_of_error

/-- A mark ends no statement, and is a string only if it starts with a quote. -/
theorem within_mark (c : Char) (rest : List Char) : (mark c rest).Within c rest := by
  unfold mark
  split
  · unfold character
    split
    · split
      · exact within_of_error
      · exact within_of_ok rfl (fun _ h => by cases h)
    · exact within_of_error
  · refine ⟨fun h => ?_, fun _ => ⟨rfl, rfl⟩⟩
    unfold quotedString at h
    split at h <;> cases h
    rfl
  · split
    · exact within_of_ok rfl (fun _ h => by cases h)
    · exact within_of_error

theorem within_word {c d : Char} {rest text : List Char} {found : Found} (h : word? (d :: text) = some found) :
    found.Within c rest := by
  unfold word? at h
  dsimp only at h
  split at h <;> cases h
  cases Keyword.ofWord? (String.ofList ((d :: text).takeWhile isNameRest)) with
  | some k => exact within_of_ok rfl (fun _ h => by cases h)
  | none => exact within_of_ok rfl (fun _ h => by cases h)

theorem within_lexeme (c : Char) (rest : List Char) : (lexeme c rest).Within c rest :=
  forall_lexeme (fun _ _ => within_numeral) within_word (within_mark c rest)

end Scan

/-! ### Cursors -/

/-- A place further on in the same file. -/
structure Cursor.Later (c d : Cursor) : Prop where
  file : d.file = c.file
  text : d.text = c.text
  rest : d.rest <:+ c.rest

/-- A line ends further on in the file. -/
def Cursor.InLine (c : Cursor) : Prop := c.rest.getLast? = some '\n'

namespace Cursor

variable {c d e : Cursor}

theorem Later.refl (c : Cursor) : c.Later c := ⟨rfl, rfl, List.suffix_refl _⟩

theorem Later.trans (h : c.Later d) (k : d.Later e) : c.Later e :=
  ⟨k.file.trans h.file, k.text.trans h.text, k.rest.trans h.rest⟩

theorem later_advance (c : Cursor) (n : Nat) : c.Later (c.advance n) := ⟨rfl, rfl, List.drop_suffix _ _⟩

theorem later_nextLine (c : Cursor) : c.Later c.nextLine := ⟨rfl, rfl, List.drop_suffix _ _⟩

theorem later_lineEnd (c : Cursor) : c.Later c.lineEnd := later_advance _ _

theorem later_skipBlanks (c : Cursor) : c.Later c.skipBlanks := by
  unfold skipBlanks
  dsimp only
  split
  · exact (later_advance _ _).trans (later_lineEnd _)
  · exact later_advance _ _

/-- What is left of a file whose text ends with a line. -/
theorem InLine.later (h : c.InLine) (later : c.Later d) (more : d.rest ≠ []) : d.InLine := by
  obtain ⟨before, same⟩ := later.rest
  rw [InLine, ← same, List.getLast?_append_of_ne_nil _ more] at h
  exact h

/-- Characters that end no line are skipped in front of the end of the line. -/
theorem InLine.advance (h : c.InLine) {n : Nat} (line : '\n' ∉ c.rest.take n) : (c.advance n).InLine := by
  refine h.later (later_advance c n) fun none => line ?_
  rw [List.take_of_length_le (List.drop_eq_nil_iff.1 none)]
  exact List.mem_of_getLast? h

theorem not_mem_take_takeWhile {p : Char → Bool} (end_ : p '\n' = false) (cs : List Char) :
    '\n' ∉ cs.take (cs.takeWhile p).length := by
  intro mem
  rw [← List.prefix_iff_eq_take.1 (List.takeWhile_prefix p)] at mem
  have passed := List.mem_takeWhile_imp mem
  rw [end_] at passed
  cases passed

theorem InLine.lineEnd (h : c.InLine) : c.lineEnd.InLine := h.advance (not_mem_take_takeWhile rfl _)

theorem InLine.skipBlanks (h : c.InLine) : c.skipBlanks.InLine := by
  have blanks := h.advance (not_mem_take_takeWhile (p := Scan.isBlank) rfl c.rest)
  unfold Cursor.skipBlanks
  dsimp only
  split
  · exact blanks.lineEnd
  · exact blanks

end Cursor

namespace TokenStream

variable {w : Nat → Nat} {s t : TokenStream} {token : Token} {files : SourceTable}

/-! ### Moves -/

/-- What reading does to a stream. -/
inductive Move (s : TokenStream) : TokenStream → Prop where
  | take {r : Except Error Token} {t : TokenStream} (h : s.next = (r, t)) : Move s t
  | look {token : Token} {t : TokenStream} (h : s.next = (.ok token, t)) : Move s (t.unread token)
  | skip : Move s { s with top := s.top.lineEnd }

/-- Any number of moves. -/
abbrev Onward : TokenStream → TokenStream → Prop := Relation.ReflTransGen Move

/-- The innermost file is read on, or left. -/
theorem cursors_of_next {r : Except Error Token} (h : s.next = (r, t)) :
    (∃ c, t.cursors = c :: s.below ∧ s.top.Later c) ∨ t.cursors = s.below := by
  have blanks := s.top.later_skipBlanks
  unfold next at h
  split at h
  · cases h
    exact .inl ⟨s.top, rfl, .refl _⟩
  · unfold scan at h
    dsimp only at h
    split at h
    · split at h <;> cases h
      · exact .inl ⟨_, rfl, blanks⟩
      · rename_i outer below stack
        exact .inr stack.symm
    · split at h <;> cases h
      · exact .inl ⟨_, rfl, blanks.trans (Cursor.later_nextLine _)⟩
      · exact .inl ⟨_, rfl, blanks.trans (Cursor.later_advance _ _)⟩

theorem cursors_of_move (h : s.Move t) : (∃ c, t.cursors = c :: s.below ∧ s.top.Later c) ∨ t.cursors = s.below := by
  cases h with
  | take h => exact cursors_of_next h
  | look h => exact (cursors_of_next h :)
  | skip => exact .inl ⟨_, rfl, s.top.later_lineEnd⟩

/-- No move adds to what is left. -/
theorem weigh_move (positive : ∀ d, 1 ≤ w d) (h : s.Move t) : weigh w t ≤ weigh w s := by
  cases h with
  | @take r _ h =>
    cases r with
    | ok token => exact Nat.le_trans (Nat.le_add_right ..) (weigh_next positive h)
    | error e => exact weigh_next_error positive h
  | look h =>
    rw [weigh_unread (ahead_of_next h)]
    exact weigh_next positive h
  | skip =>
    refine Nat.add_le_add_right (weighFiles_le (n := 0) positive ?_) _
    exact s.top.later_lineEnd.rest.length_le

theorem weigh_onward (positive : ∀ d, 1 ≤ w d) (h : s.Onward t) : weigh w t ≤ weigh w s := by
  induction h with
  | refl => exact Nat.le_refl _
  | tail _ move ih => exact Nat.le_trans (weigh_move positive move) ih

theorem Fits.onward (fits : s.Fits) (h : s.Onward t) : t.Fits := by
  induction h with
  | refl => exact fits
  | tail _ move ih =>
    cases move with
    | take h => exact ih.next h
    | look h => exact (ih.next h).unread _
    | skip => exact fits_top ih rfl (Cursor.later_lineEnd _).rest.length_le rfl

/-- The rest of a line that cannot be read is more than nothing. -/
theorem weigh_lineEnd_lt {e : Error} (positive : ∀ d, 1 ≤ w d) (h : s.next = (.error e, t)) :
    weigh w { t with top := t.top.lineEnd } + 1 ≤ weigh w s := by
  have read : t.ahead = none := ahead_of_next h
  rw [weigh_of_ahead (t := { t with top := t.top.lineEnd }) read]
  unfold next at h
  split at h
  · cases h
  · rename_i none
    rw [weigh_of_ahead none]
    have skipped := length_skipBlanks_le s.top
    unfold scan at h
    dsimp only at h
    split at h
    · split at h <;> cases h
    · rename_i c rest characters
      split at h
      · cases h
      · rename_i inside
        obtain ⟨-, rfl⟩ := Prod.mk.inj h
        refine weighFiles_le positive ?_
        have dropped : (c :: rest).takeWhile (· != '\n') = c :: rest.takeWhile (· != '\n') := by
          rw [List.takeWhile_cons, if_pos (bne_iff_ne.2 inside)]
        -- the error may have moved past nothing, but not to the end of the line
        cases (Scan.lexeme c rest).length with
        | zero =>
          simp only [Cursor.lineEnd, Cursor.advance, characters, List.drop_zero, dropped, List.length_cons,
            List.length_drop] at skipped ⊢
          omega
        | succ n =>
          simp only [Cursor.lineEnd, Cursor.advance, characters, List.length_drop, List.length_cons] at skipped ⊢
          omega

/-! ### The stack of files -/

/-- The numbers of the files being read, innermost first. -/
def open_ (s : TokenStream) : List Nat := s.cursors.map (·.file)

/-- The files being read are different files of the table, each at a place in its text. -/
structure Placed (files : SourceTable) (s : TokenStream) : Prop where
  texts : ∀ c ∈ s.cursors, files.text? c.file = some c.text ∧ c.rest <:+ c.text.toList
  distinct : s.open_.Nodup

namespace Placed

theorem move (placed : s.Placed files) (h : s.Move t) : t.Placed files := by
  obtain ⟨texts, distinct⟩ := placed
  unfold open_ at distinct
  obtain ⟨c, same, later⟩ | same := cursors_of_move h
  · refine ⟨fun d mem => ?_, ?_⟩
    · rw [same] at mem
      obtain rfl | mem := List.mem_cons.1 mem
      · rw [later.file, later.text]
        exact (texts _ List.mem_cons_self).imp_right later.rest.trans
      · exact texts d (List.mem_cons_of_mem _ mem)
    · rw [open_, same, List.map_cons, later.file]
      exact distinct
  · refine ⟨fun d mem => texts d (List.mem_cons_of_mem _ (same ▸ mem)), ?_⟩
    rw [open_, same]
    exact (List.nodup_cons.1 distinct).2

theorem fits (placed : s.Placed files) : s.Fits := by
  intro c mem
  exact Nat.le_trans (placed.texts c mem).2.length_le (length_le_utf8ByteSize _)

/-- There are no more files on the stack than in the table. -/
theorem length_le (placed : s.Placed files) : s.open_.length ≤ files.size := by
  have sub : s.open_ ⊆ List.range files.size := by
    intro id mem
    obtain ⟨c, on, rfl⟩ := List.mem_map.1 mem
    obtain ⟨file, found, -⟩ := Option.map_eq_some_iff.1 (placed.texts c on).1
    exact List.mem_range.2 (Array.getElem?_eq_some_iff.1 found).1
  have short := (List.Nodup.subperm placed.distinct sub).length_le
  rwa [List.length_range] at short

end Placed

theorem placed_ofFile {root : Nat} (known : root < files.size) : (ofFile files root).Placed files := by
  have found : files.text? root = some files.files[root].text := by
    rw [SourceTable.text?, SourceTable.get?, Array.getElem?_eq_getElem known]
    rfl
  refine ⟨fun c mem => ?_, List.nodup_singleton _⟩
  obtain rfl := List.mem_singleton.1 mem
  rw [ofFile, found]
  exact ⟨found, List.suffix_refl _⟩

/-- A file that is being read is not read again inside itself. -/
theorem pushFile_of_mem {id : Nat} {pos : Position} (mem : id ∈ s.open_) :
    s.pushFile files id pos = .error (.at_ (.includeRecursion (files.displayName id)) pos) := by
  obtain ⟨c, on, rfl⟩ := List.mem_map.1 mem
  have reading : s.cursors.any (·.file == c.file) = true := List.any_eq_true.2 ⟨c, on, beq_self_eq_true _⟩
  rw [pushFile, if_pos reading]

theorem of_pushFile {id : Nat} {pos : Position} (h : s.pushFile files id pos = .ok t) :
    id ∉ s.open_ ∧ ∃ text, files.text? id = some text
      ∧ t = { s with top := .ofText id text, below := s.top :: s.below } := by
  unfold pushFile at h
  split at h
  · cases h
  · rename_i closed
    split at h <;> cases h
    rename_i text found
    refine ⟨fun mem => closed ?_, text, found, rfl⟩
    obtain ⟨c, on, rfl⟩ := List.mem_map.1 mem
    exact List.any_eq_true.2 ⟨c, on, beq_self_eq_true _⟩

theorem Placed.push (placed : s.Placed files) {id : Nat} {pos : Position} (h : s.pushFile files id pos = .ok t) :
    t.Placed files := by
  obtain ⟨new, text, found, rfl⟩ := of_pushFile h
  refine ⟨fun c mem => ?_, List.nodup_cons.2 ⟨new, placed.distinct⟩⟩
  obtain rfl | mem := List.mem_cons.1 mem
  · exact ⟨found, List.suffix_refl _⟩
  · exact placed.texts c mem

/-- Reading and including files of the table lead from `s` to `t`. -/
abbrev Course (files : SourceTable) : TokenStream → TokenStream → Prop :=
  Relation.ReflTransGen fun s t => s.Move t ∨ ∃ id pos, s.pushFile files id pos = .ok t

theorem Onward.course (h : s.Onward t) : s.Course files t := Relation.ReflTransGen.mono (fun _ _ => .inl) _ _ h

theorem Placed.course (placed : s.Placed files) (h : s.Course files t) : t.Placed files := by
  induction h with
  | refl => exact placed
  | tail _ step ih =>
    obtain move | ⟨id, pos, push⟩ := step
    · exact ih.move move
    · exact ih.push push

/-! ### What an inclusion costs -/

/-- Behind a string the line goes on, if lines end. -/
theorem inLine_of_string {name : String} (fresh : s.ahead = none) (line : s.top.rest ≠ [] → s.top.InLine)
    (h : s.next = (.ok token, t)) (string : token.lexeme = .string name) : t.top.InLine := by
  rw [next, fresh] at h
  unfold scan at h
  dsimp only at h
  split at h
  · split at h <;> cases h <;> cases string
  · rename_i c rest characters
    split at h
    · cases h
      cases string
    · cases found : (Scan.lexeme c rest).result with
      | error cause =>
        rw [found] at h
        cases h
      | ok lexeme =>
        rw [found] at h
        cases h
        cases string
        obtain ⟨rfl, quoted⟩ := (Scan.within_lexeme c rest).quoted found
        rw [quoted] at found ⊢
        have some : s.top.rest ≠ [] := by
          intro none
          have short := length_skipBlanks_le s.top
          rw [characters, none] at short
          exact absurd short (Nat.not_succ_le_zero _)
        have line := (line some).skipBlanks
        unfold Scan.quotedString at found ⊢
        split at found
        · rename_i n acc body
          obtain ⟨inside, after, rfl, rfl, within⟩ := Scan.exists_of_stringBody body
          refine line.advance ?_
          rw [characters, Nat.add_comm]
          simp only [List.take_succ_cons, List.take_left', List.mem_cons, not_or]
          exact ⟨by decide, within⟩
        · cases found

/-- Where a line ends further on, the end of a statement is the end of the line, in the same file. -/
theorem weigh_of_endOfLine (fresh : s.ahead = none) (line : s.top.InLine) (h : s.next = (.ok token, t))
    (ends : token.endsStatement = true) :
    token.lexeme = .endOfLine ∧ t.below = s.below ∧ weigh w t + w s.below.length ≤ weigh w s := by
  have line := line.skipBlanks
  rw [weigh_of_ahead (ahead_of_next h), weigh_of_ahead fresh]
  rw [next, fresh] at h
  unfold scan at h
  dsimp only at h
  split at h
  · rename_i none
    rw [Cursor.InLine, none] at line
    cases line
  · rename_i c rest characters
    split at h
    · cases h
      refine ⟨rfl, rfl, ?_⟩
      have skipped := length_skipBlanks_le s.top
      have shorter : s.top.skipBlanks.nextLine.rest.length + 1 ≤ s.top.rest.length := by
        simpa only [Cursor.nextLine, characters, List.drop_one, List.tail_cons, List.length_cons] using skipped
      show (s.top.skipBlanks.nextLine.rest.length + 1) * w s.below.length + weighFiles w s.below + w s.below.length
        ≤ (s.top.rest.length + 1) * w s.below.length + weighFiles w s.below
      have product := Nat.mul_le_mul_right (w s.below.length) (Nat.add_le_add_right shorter 1)
      rw [Nat.add_right_comm, Nat.succ_mul] at product
      omega
    · cases found : (Scan.lexeme c rest).result with
      | error cause =>
        rw [found] at h
        cases h
      | ok lexeme =>
        rw [found] at h
        cases h
        cases ((Scan.within_lexeme c rest).inside found).symm.trans ends

/-- A file that is included weighs no more than a character of the file that includes it, if each depth weighs that
much less. -/
theorem weigh_push {id : Nat} {pos : Position} (h : s.pushFile files id pos = .ok t)
    (light : ∀ text, files.text? id = some text → (text.toList.length + 1) * w (s.below.length + 1) ≤ w s.below.length) :
    weigh w t ≤ weigh w s + w s.below.length := by
  obtain ⟨-, text, found, rfl⟩ := of_pushFile h
  have cost := light text found
  show (text.toList.length + 1) * w (s.below.length + 1) + weighFiles w s.cursors + (s.ahead.map Token.weight).getD 0
    ≤ weighFiles w s.cursors + (s.ahead.map Token.weight).getD 0 + w s.below.length
  omega

end TokenStream

end Asm65
