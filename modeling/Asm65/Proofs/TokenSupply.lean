import Asm65.Assembly.State
import Asm65.Proofs.SourceText

/-!
# How much is left to read

Every token but the end of the root file takes a character or the end of an included file, so the characters left in
the files on the stack bound the tokens that come. In the measure `TokenStream.weigh` a character counts as much as the
depth of its file says; a token that was put back counts one.
-/

namespace Asm65
set_option autoImplicit false

/-- What a token counts that was put back. -/
def Token.weight (t : Token) : Nat := if t.lexeme == .endOfFile then 0 else 1

theorem Token.weight_le (t : Token) : t.weight ≤ 1 := by
  unfold weight
  split <;> decide

theorem Token.weight_eq_one {t : Token} (h : t.lexeme ≠ .endOfFile) : t.weight = 1 := by
  rw [weight, if_neg (by simpa using h)]

namespace TokenStream

variable {w : Nat → Nat} {s t : TokenStream} {token : Token}

/-- The characters left in files, with one for each file's end, each times the weight at the file's depth. -/
def weighFiles (w : Nat → Nat) : List Cursor → Nat
  | [] => 0
  | c :: below => (c.rest.length + 1) * w below.length + weighFiles w below

/-- The weight of what is left to read. -/
def weigh (w : Nat → Nat) (s : TokenStream) : Nat := weighFiles w s.cursors + (s.ahead.map Token.weight).getD 0

theorem ahead_of_next {r : Except Error Token} (h : s.next = (r, t)) : t.ahead = none := by
  unfold next at h
  split at h
  · cases h
    rfl
  · rename_i none
    unfold scan at h
    dsimp only at h
    split at h
    · split at h <;> cases h <;> exact none
    · split at h <;> cases h <;> exact none

/-- A token is not read from the text before the one that was put back. -/
theorem next_unread (none : t.ahead = none) : (t.unread token).next = (.ok token, t) := by
  show (Except.ok token, { t with ahead := .none }) = (Except.ok token, t)
  rw [← none]

theorem next_unread_of_next {r : Except Error Token} (h : s.next = (r, t)) : (t.unread token).next = (.ok token, t) :=
  next_unread (ahead_of_next h)

theorem weigh_of_ahead (none : t.ahead = none) : weigh w t = weighFiles w t.cursors := by
  rw [weigh, none]
  rfl

theorem weigh_unread (none : t.ahead = none) : weigh w (t.unread token) = weigh w t + token.weight := by
  rw [weigh_of_ahead none]
  rfl

/-- A file that has been read further weighs less. -/
theorem weighFiles_le {c c' : Cursor} {below : List Cursor} {n : Nat} (positive : ∀ d, 1 ≤ w d)
    (h : c'.rest.length + n ≤ c.rest.length) : weighFiles w (c' :: below) + n ≤ weighFiles w (c :: below) := by
  have product : (c'.rest.length + 1) * w below.length + n * w below.length ≤ (c.rest.length + 1) * w below.length := by
    rw [← Nat.add_mul]
    exact Nat.mul_le_mul_right _ (by omega)
  have heavy : n * 1 ≤ n * w below.length := Nat.mul_le_mul_left n (positive _)
  show (c'.rest.length + 1) * w below.length + weighFiles w below + n ≤ _ + weighFiles w below
  omega

/-- Reading a token other than the end of the root file makes what is left lighter. -/
theorem weigh_next (positive : ∀ d, 1 ≤ w d) (h : s.next = (.ok token, t)) : weigh w t + token.weight ≤ weigh w s := by
  rw [weigh_of_ahead (ahead_of_next h)]
  unfold next at h
  split at h
  · rename_i put
    cases h
    rw [weigh, put]
    exact Nat.le_refl _
  · rename_i none
    rw [weigh_of_ahead none]
    have skipped := length_skipBlanks_le s.top
    unfold scan at h
    dsimp only at h
    split at h
    · split at h
      · cases h
        exact weighFiles_le positive skipped
      · rename_i outer below stack
        cases h
        show weighFiles w (outer :: below) + 1 ≤ weighFiles w (s.top :: s.below)
        rw [stack]
        show _ ≤ (s.top.rest.length + 1) * w _ + weighFiles w (outer :: below)
        have one : 1 * 1 ≤ (s.top.rest.length + 1) * w (outer :: below).length :=
          Nat.mul_le_mul (Nat.le_add_left ..) (positive _)
        omega
    · rename_i c rest characters
      rw [characters] at skipped
      split at h
      · cases h
        refine weighFiles_le positive ?_
        simp only [Cursor.nextLine, characters, List.drop_one, List.tail_cons]
        exact skipped
      · cases found : (Scan.lexeme c rest).result with
        | error cause =>
          rw [found] at h
          cases h
        | ok lexeme =>
          rw [found] at h
          cases h
          have moves := Scan.moves_lexeme c rest lexeme found
          have light := Token.weight_le ⟨lexeme, s.top.skipBlanks.pos⟩
          refine weighFiles_le positive ?_
          simp only [Cursor.advance, characters, List.length_drop, List.length_cons] at skipped ⊢
          omega

/-- An error does not add to what is left. -/
theorem weigh_next_error {e : Error} (positive : ∀ d, 1 ≤ w d) (h : s.next = (.error e, t)) : weigh w t ≤ weigh w s := by
  rw [weigh_of_ahead (ahead_of_next h)]
  unfold next at h
  split at h
  · cases h
  · rename_i none
    rw [weigh_of_ahead none]
    have skipped := length_skipBlanks_le s.top
    unfold scan at h
    dsimp only at h
    split at h
    · split at h <;> cases h
    · split at h
      · cases h
      · obtain ⟨-, rfl⟩ := Prod.mk.inj h
        refine weighFiles_le (n := 0) positive ?_
        simp only [Cursor.advance, List.length_drop]
        omega

/-- An error in the text has its place. -/
theorem located_of_next {e : Error} (h : s.next = (.error e, t)) (pos : Position) : e.located pos = e := by
  unfold next at h
  split at h
  · cases h
  · unfold scan at h
    dsimp only at h
    split at h
    · split at h <;> cases h
    · split at h
      · cases h
      · split at h <;> cases h
        rfl

/-! ### The limit on tokens -/

/-- What is left of a file is no longer than the file. -/
def Fits (s : TokenStream) : Prop := ∀ c ∈ s.cursors, c.rest.length ≤ c.text.utf8ByteSize

theorem fits_ofText (file : Nat) (text : String) : Fits { top := .ofText file text } := by
  intro c mem
  obtain rfl := List.mem_singleton.1 mem
  exact length_le_utf8ByteSize _

theorem fits_top {c : Cursor} {below : List Cursor} {ahead : Option Token} (h : s.Fits)
    (text : c.text = s.top.text) (shorter : c.rest.length ≤ s.top.rest.length) (same : below = s.below) :
    Fits ⟨c, below, ahead⟩ := by
  subst same
  intro c' mem
  obtain rfl | mem := List.mem_cons.1 mem
  · rw [text]
    exact Nat.le_trans shorter (h _ List.mem_cons_self)
  · exact h c' (List.mem_cons_of_mem _ mem)

/-- After reading a token no more is left of a file than it has. -/
theorem Fits.next {r : Except Error Token} (fits : s.Fits) (h : s.next = (r, t)) : t.Fits := by
  unfold TokenStream.next at h
  split at h
  · cases h
    exact fits
  · unfold scan at h
    dsimp only at h
    have skipped := length_skipBlanks_le s.top
    have text := text_skipBlanks s.top
    split at h
    · split at h <;> cases h
      · exact fits_top fits text skipped rfl
      · rename_i outer below stack
        intro c mem
        refine fits c (List.mem_cons_of_mem _ ?_)
        rw [stack]
        exact mem
    · split at h <;> cases h
      · refine fits_top fits text (Nat.le_trans ?_ skipped) rfl
        simp [Cursor.nextLine]
      · refine fits_top fits text (Nat.le_trans ?_ skipped) rfl
        simp [Cursor.advance]

theorem Fits.unread (fits : s.Fits) (token : Token) : (s.unread token).Fits := fits

theorem weighFiles_le_budget (cs : List Cursor) (n : Nat) (short : ∀ c ∈ cs, c.rest.length ≤ c.text.utf8ByteSize) :
    n + weighFiles (fun _ => 1) cs ≤ cs.foldl (fun n c => n + c.text.utf8ByteSize + 2) n := by
  induction cs generalizing n with
  | nil => exact Nat.le_refl _
  | cons c cs ih =>
    have first := short c List.mem_cons_self
    have others := ih (n + c.text.utf8ByteSize + 2) fun c mem => short c (List.mem_cons_of_mem _ mem)
    rw [List.foldl_cons, weighFiles]
    omega

/-- There are fewer tokens than the limit. -/
theorem Fits.weigh_lt_budget (fits : s.Fits) : weigh (fun _ => 1) s < s.budget := by
  have all := weighFiles_le_budget s.cursors 4 fits
  have put : (s.ahead.map Token.weight).getD 0 ≤ 1 := by
    cases s.ahead with
    | none => exact Nat.zero_le _
    | some token => exact token.weight_le
  rw [budget, weigh]
  omega

end TokenStream

/-! ### Reading in the assembler -/

namespace Assembler

variable {s t : Assembler}

theorem next_of_nextToken {token : Token} (run : Asm.nextToken s = .ok token t) :
    s.tokens.next = (.ok token, t.tokens)
      ∧ t = { s with tokens := t.tokens, lineEnded := token.lexeme == .endOfLine } := by
  unfold Asm.nextToken at run
  split at run
  · rename_i token tokens read
    cases run
    exact ⟨read, rfl⟩
  · cases run

theorem next_of_nextToken_error {e : Error} (run : Asm.nextToken s = .error e t) :
    s.tokens.next = (.error e, t.tokens) ∧ t = { s with tokens := t.tokens } := by
  unfold Asm.nextToken at run
  split at run
  · cases run
  · rename_i e tokens read
    cases run
    exact ⟨read, rfl⟩

theorem nextToken_of_next {token : Token} {tokens : TokenStream} (read : s.tokens.next = (.ok token, tokens)) :
    Asm.nextToken s = .ok token { s with tokens, lineEnded := token.lexeme == .endOfLine } := by
  unfold Asm.nextToken
  rw [read]

end Assembler

namespace Scope

variable {α : Type} {s t : Scope α}

theorem next_of_nextToken {token : Token} (run : Scope.nextToken s = .ok token t) :
    s.tokens.next = (.ok token, t.tokens) ∧ t = { s with tokens := t.tokens } := by
  unfold Scope.nextToken at run
  split at run
  · rename_i token tokens read
    cases run
    exact ⟨read, rfl⟩
  · cases run

theorem next_of_nextToken_error {e : Error} (run : Scope.nextToken s = .error e t) :
    s.tokens.next = (.error e, t.tokens) ∧ t = { s with tokens := t.tokens } := by
  unfold Scope.nextToken at run
  split at run
  · cases run
  · rename_i e tokens read
    cases run
    exact ⟨read, rfl⟩

theorem nextToken_of_next {token : Token} {tokens : TokenStream} (read : s.tokens.next = (.ok token, tokens)) :
    Scope.nextToken s = .ok token { s with tokens } := by
  unfold Scope.nextToken
  rw [read]

end Scope

end Asm65
