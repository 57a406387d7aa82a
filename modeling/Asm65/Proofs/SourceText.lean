import Asm65.Proofs.SourceRows

/-!
# Rows of a text

A text spells rows if its tokens do. Every token but the end of the file takes characters, so the tokens of a text are
at most as many as its characters, and one more. That keeps them within the limits that a pass has on tokens and lines
(`SpelledBy.offers`).
-/

namespace Asm65
set_option autoImplicit false

/-! ### Characters of a token -/

namespace Scan

/-- A lexeme takes a character at least. -/
def Found.Moves (found : Found) : Prop := ∀ l, found.result = .ok l → 0 < found.length

theorem moves_numeral {radix mark : Nat} {text : List Char} {found : Found}
    (h : numeral? radix mark text = some found) : found.Moves := by
  unfold numeral? at h
  dsimp only at h
  split at h
  · cases h
  · rename_i digits
    split at h <;> cases h
    · intro l _
      have some : 0 < (text.takeWhile (Numeral.isDigit radix)).length := by
        rw [List.length_pos_iff]
        simpa using digits
      exact Nat.lt_of_lt_of_le some (Nat.le_add_left _ _)
    · intro l refused
      cases refused

theorem moves_word {text : List Char} {found : Found} (h : word? text = some found) : found.Moves := by
  unfold word? at h
  split at h
  · rename_i c rest
    split at h
    · rename_i starts
      cases h
      intro l _
      have inside : isNameRest c = true := by rw [isNameRest, starts, Bool.true_or]
      simp [inside]
    · cases h
  · cases h

theorem lt_of_stringBody {text : List Char} {n m : Nat} {acc cs : List Char}
    (h : stringBody? text n acc = some (m, cs)) : n < m := by
  fun_induction stringBody? text n acc with
  | case1 =>
    cases h
    exact Nat.lt_succ_self _
  | case2 | case3 | case5 | case7 => cases h
  | case4 _ _ _ _ _ ih => exact Nat.lt_of_le_of_lt (Nat.le_add_right _ 2) (ih h)
  | case6 _ _ _ _ _ _ _ _ ih => exact Nat.lt_of_le_of_lt (Nat.le_add_right _ 1) (ih h)

/-- A mark that is read takes a character at least. -/
theorem moves_mark (c : Char) (rest : List Char) : (mark c rest).Moves := by
  unfold mark
  split
  · unfold character
    split
    · split
      · intro l refused
        cases refused
      · intro l _
        dsimp only
        split <;> decide
    · intro l refused
      cases refused
  · unfold quotedString
    split
    · rename_i n acc found
      intro l _
      exact Nat.lt_of_le_of_lt (Nat.zero_le 1) (lt_of_stringBody found)
    · intro l refused
      cases refused
  · split
    · rename_i p _
      intro l _
      cases p <;> decide
    · intro l refused
      cases refused

/-- What holds of every number behind its marks, every name and every mark holds of a lexeme. -/
theorem forall_lexeme {P : Found → Prop} {c : Char} {rest : List Char}
    (numeral : ∀ {radix marks text found}, c :: rest = marks ++ text → '\n' ∉ marks →
      numeral? radix marks.length text = some found → P found)
    (word : ∀ {found}, word? (c :: rest) = some found → P found) (other : P (mark c rest)) : P (lexeme c rest) := by
  unfold lexeme
  dsimp only
  cases hex : hexadecimal? (c :: rest) with
  | some found =>
    unfold hexadecimal? at hex
    split at hex
    · rename_i text same
      exact numeral (show c :: rest = ['$'] ++ text from same) (by decide) hex
    · rename_i text same
      exact numeral (show c :: rest = ['0', 'x'] ++ text from same) (by decide) hex
    · rename_i text same
      exact numeral (show c :: rest = ['0', 'X'] ++ text from same) (by decide) hex
    · cases hex
  | none =>
    cases decimal : numeral? 10 0 (c :: rest) with
    | some found => exact numeral (show c :: rest = [] ++ _ from rfl) (by decide) decimal
    | none =>
      cases binary : binary? (c :: rest) with
      | some found =>
        unfold binary? at binary
        split at binary
        · rename_i text same
          exact numeral (show c :: rest = ['%'] ++ text from same) (by decide) binary
        · cases binary
      | none =>
        cases named : word? (c :: rest) with
        | some found => exact word named
        | none => exact other

theorem moves_lexeme (c : Char) (rest : List Char) : (lexeme c rest).Moves :=
  forall_lexeme (fun _ _ => moves_numeral) moves_word (moves_mark c rest)

end Scan

namespace TokenStream

variable {s t : TokenStream}

/-- These tokens come next. -/
def Yields : TokenStream → List Token → Prop
  | _, [] => True
  | s, token :: rest => s.next.1.toOption = some token ∧ s.next.2.Yields rest

instance decidableYields : (s : TokenStream) → (tokens : List Token) → Decidable (s.Yields tokens)
  | _, [] => .isTrue trivial
  | s, _ :: rest => @instDecidableAnd _ _ _ (decidableYields s.next.2 rest)

theorem Yields.next {token : Token} {rest : List Token} (h : s.Yields (token :: rest)) :
    ∃ t, s.next = (.ok token, t) ∧ t.Yields rest := by
  obtain ⟨first, yields⟩ := h
  refine ⟨s.next.2, Prod.ext ?_ rfl, yields⟩
  cases read : s.next.1 with
  | error e =>
    rw [read] at first
    cases first
  | ok token =>
    rw [read] at first
    cases first
    rfl

/-- These tokens come next, all from one file, and are not too many. -/
structure Offers (s : TokenStream) (tokens : List Token) : Prop where
  yields : s.Yields tokens
  alone : s.below = []
  room : tokens.length ≤ s.budget

theorem text_skipBlanks (c : Cursor) : c.skipBlanks.text = c.text := by
  unfold Cursor.skipBlanks
  dsimp only
  split <;> rfl

theorem budget_of_alone (alone : s.below = []) : s.budget = 4 + s.top.text.utf8ByteSize + 2 := by
  unfold budget cursors
  rw [alone]
  rfl

/-- Reading a token of the only file leaves that file and no token put back. -/
theorem of_next {r : Except Error Token} (alone : s.below = []) (h : s.next = (r, t)) :
    t.below = [] ∧ t.ahead = none ∧ t.budget = s.budget := by
  have same (below : t.below = []) (ahead : t.ahead = none) (text : t.top.text = s.top.text) :
      t.below = [] ∧ t.ahead = none ∧ t.budget = s.budget := by
    refine ⟨below, ahead, ?_⟩
    rw [budget_of_alone alone, budget_of_alone below, text]
  unfold next at h
  split at h
  · cases h
    exact same alone rfl rfl
  · rename_i none
    unfold scan at h
    dsimp only at h
    split at h
    · rw [alone] at h
      cases h
      exact same rfl none (text_skipBlanks s.top)
    · split at h <;> cases h
      · exact same alone none (text_skipBlanks s.top)
      · exact same alone none (text_skipBlanks s.top)

theorem Offers.next {token : Token} {rest : List Token} (offers : s.Offers (token :: rest)) :
    ∃ t, s.next = (.ok token, t) ∧ t.Offers rest ∧ (t.unread token).Offers (token :: rest) := by
  obtain ⟨t, read, yields⟩ := offers.yields.next
  obtain ⟨below, ahead, budget⟩ := of_next offers.alone read
  have room := offers.room
  rw [← budget] at room
  refine ⟨t, read, ⟨yields, below, Nat.le_of_succ_le room⟩, ⟨rfl, ?_⟩, below, room⟩
  show Yields { t with ahead := none } rest
  rwa [← ahead]

theorem length_skipBlanks_le (c : Cursor) : c.skipBlanks.rest.length ≤ c.rest.length := by
  unfold Cursor.skipBlanks
  dsimp only
  split
  · simp only [Cursor.lineEnd, Cursor.advance, List.length_drop]
    omega
  · simp only [Cursor.advance, List.length_drop]
    omega

/-- Reading a token other than the end of the file takes characters. -/
theorem length_lt_of_next {token : Token} (alone : s.below = []) (ahead : s.ahead = none) (h : s.next = (.ok token, t))
    (more : token.lexeme ≠ .endOfFile) : t.top.rest.length < s.top.rest.length := by
  refine Nat.lt_of_lt_of_le ?_ (length_skipBlanks_le s.top)
  rw [next, ahead] at h
  unfold scan at h
  dsimp only at h
  split at h
  · rw [alone] at h
    cases h
    exact (more rfl).elim
  · rename_i c rest characters
    rw [characters]
    split at h
    · cases h
      simp [Cursor.nextLine, characters]
    · cases found : (Scan.lexeme c rest).result with
      | error cause =>
        rw [found] at h
        cases h
      | ok lexeme =>
        rw [found] at h
        cases h
        have moves := Scan.moves_lexeme c rest lexeme found
        simp only [Cursor.advance, characters, List.length_drop, List.length_cons]
        omega

/-- There are no more tokens in front of the end of a file than characters. -/
theorem length_le_of_yields {read rest : List Token} (alone : s.below = []) (ahead : s.ahead = none)
    (yields : s.Yields (read ++ rest)) (more : ∀ token ∈ read, token.lexeme ≠ .endOfFile) :
    read.length ≤ s.top.rest.length := by
  induction read generalizing s with
  | nil => exact Nat.zero_le _
  | cons token read ih =>
    obtain ⟨t, next, yields⟩ := yields.next
    obtain ⟨below, ahead', -⟩ := of_next alone next
    have shorter := length_lt_of_next alone ahead next (more token List.mem_cons_self)
    have others := ih below ahead' yields fun token mem => more token (List.mem_cons_of_mem _ mem)
    exact Nat.lt_of_le_of_lt others shorter

end TokenStream

theorem length_le_utf8ByteSize (text : String) : text.toList.length ≤ text.utf8ByteSize := by
  suffices h : ∀ cs : List Char, cs.length ≤ (String.ofList cs).utf8ByteSize by simpa using h text.toList
  intro cs
  induction cs with
  | nil => exact Nat.zero_le _
  | cons c cs ih =>
    have first : 0 < (String.ofList [c]).utf8ByteSize := by
      rw [← String.singleton_eq_ofList, String.utf8ByteSize_singleton]
      exact c.utf8Size_pos
    rw [← List.singleton_append, String.ofList_append, String.utf8ByteSize_append, List.length_append]
    exact Nat.add_le_add first ih

/-- The text of a file spells rows. -/
def SpelledBy (root : Nat) (text : String) (rows : List Row) : Prop :=
  ∃ tokens, TokenStream.Yields { top := .ofText root text } tokens ∧ Spells tokens rows

theorem SpelledBy.offers {root : Nat} {text : String} {rows : List Row} (h : SpelledBy root text rows) :
    ∃ tokens, TokenStream.Offers { top := .ofText root text } tokens ∧ Spells tokens rows
      ∧ tokens.length ≤ text.utf8ByteSize + 1 := by
  obtain ⟨tokens, yields, spells⟩ := h
  obtain ⟨read, pos, same, more⟩ := spells.exists_append
  have short : tokens.length ≤ text.utf8ByteSize + 1 := by
    rw [same] at yields ⊢
    have inside : read.length ≤ text.toList.length := TokenStream.length_le_of_yields rfl rfl yields more
    rw [List.length_append]
    exact Nat.succ_le_succ (Nat.le_trans inside (length_le_utf8ByteSize text))
  refine ⟨tokens, ⟨yields, rfl, ?_⟩, spells, short⟩
  rw [TokenStream.budget_of_alone rfl]
  show tokens.length ≤ 4 + text.utf8ByteSize + 2
  omega

/-! ### The size of all files -/

theorem le_foldl_add {α : Type} (f : α → Nat) (xs : List α) (n : Nat) : n ≤ xs.foldl (fun n x => n + f x) n := by
  induction xs generalizing n with
  | nil => exact Nat.le_refl n
  | cons x xs ih => exact Nat.le_trans (Nat.le_add_right n (f x)) (ih _)

theorem le_foldl_add_of_mem {α : Type} (f : α → Nat) {xs : List α} {x : α} (mem : x ∈ xs) (n : Nat) :
    f x ≤ xs.foldl (fun n x => n + f x) n := by
  induction xs generalizing n with
  | nil => cases mem
  | cons y xs ih =>
    obtain rfl | mem := List.mem_cons.1 mem
    · exact Nat.le_trans (Nat.le_add_left _ n) (le_foldl_add f xs _)
    · exact ih mem _

/-- A file is no longer than all files together. -/
theorem SourceTable.utf8ByteSize_le {t : SourceTable} {id : Nat} {text : String} (source : t.text? id = some text) :
    text.utf8ByteSize ≤ t.files.foldl (fun n f => n + f.text.utf8ByteSize) 0 := by
  obtain ⟨file, found, rfl⟩ := Option.map_eq_some_iff.1 source
  rw [← Array.foldl_toList]
  exact le_foldl_add_of_mem (·.text.utf8ByteSize) (Array.mem_toList_iff.2 (Array.mem_of_getElem? found)) 0

end Asm65
