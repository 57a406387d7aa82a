import Asm65.Assembly.Instruction

/-!
# What a reading is put together from

Expressions and operands are read by taking and putting back tokens, asking for names and the location, and failing.
A property of computations that holds of these, and of what follows one another, holds of the readings.
-/

namespace Asm65
set_option autoImplicit false

/-! ### Tokens inside a statement -/

namespace Token

variable {t : Token}

theorem inside_of_lexeme {l : Lexeme} (h : t.lexeme = l) (inside : l.endsStatement = false) :
    t.endsStatement = false := by
  rw [endsStatement, h, inside]

theorem inside_of_isPunct {p : Punct} (h : t.isPunct p = true) : t.endsStatement = false :=
  inside_of_lexeme (eq_of_beq h) rfl

theorem inside_of_isKeyword {k : Keyword} (h : t.isKeyword k = true) : t.endsStatement = false :=
  inside_of_lexeme (eq_of_beq h) rfl

theorem inside_of_identifier? {name : String} (h : t.identifier? = some name) : t.endsStatement = false := by
  unfold identifier? at h
  split at h <;> cases h
  exact inside_of_lexeme (by assumption) rfl

theorem inside_of_operator? {found : Operator × Nat} (h : Expression.operator? t.lexeme = some found) :
    t.endsStatement = false := by
  cases l : t.lexeme with
  | endOfLine | endOfFile =>
    rw [l] at h
    cases h
  | _ => exact inside_of_lexeme l rfl

end Token

namespace Expression

variable {σ α : Type} [Operands σ α]

/-- A property that the parts of a reading have and that what is put together from them keeps. Right after a token was
taken a computation may put it back or fail, or go on if the token does not end the statement; `After` is what is asked
of it then. `Here` are the positions of the tokens, at which errors are reported. -/
structure Closed (P : ∀ {γ : Type}, EStateM Error σ γ → Prop) (After : ∀ {γ : Type}, Token → EStateM Error σ γ → Prop)
    (Here : Position → Prop) : Prop where
  pure {γ : Type} (a : γ) : P (Pure.pure a)
  bind {γ δ : Type} {x : EStateM Error σ γ} {g : γ → EStateM Error σ δ} (hx : P x) (hg : ∀ a, P (g a)) : P (x >>= g)
  throw {γ : Type} (cause : Cause) {pos : Position} (here : Here pos) :
    P (MonadExcept.throw (.at_ cause pos) : EStateM Error σ γ)
  next {γ : Type} {g : Token → EStateM Error σ γ} (hg : ∀ t, Here t.pos → After t (g t)) : P (Operands.next >>= g)
  after {γ : Type} {t : Token} {x : EStateM Error σ γ} (inside : t.endsStatement = false) (hx : P x) : After t x
  fail {γ : Type} (t : Token) (cause : Cause) {pos : Position} (here : Here pos) :
    After t (MonadExcept.throw (.at_ cause pos) : EStateM Error σ γ)
  unread {γ : Type} (t : Token) {g : Unit → EStateM Error σ γ} (hg : P (g ())) : After t (Expression.unread t >>= g)
  resolve (name : String) {pos : Position} (here : Here pos) : P (Operands.resolve name pos : EStateM Error σ α)
  location : P (do return Operands.location (← get) : EStateM Error σ α)
  locating {pos : Position} (here : Here pos) {x : EStateM Error σ α} (hx : P x) : P (Expression.locating pos x)
  budget {γ : Type} {g : Nat → EStateM Error σ γ} (hg : ∀ n, P (g n)) :
    P (do let s ← get; g (Operands.budget s))

namespace Closed

variable {P : ∀ {γ : Type}, EStateM Error σ γ → Prop} {After : ∀ {γ : Type}, Token → EStateM Error σ γ → Prop}
  {Here : Position → Prop} (closed : Closed (α := α) P After Here)

include closed

theorem lift {pos : Position} (here : Here pos) (x : Except Cause α) :
    P (Expression.lift pos x : EStateM Error σ α) := by
  cases x with
  | ok a => exact closed.pure a
  | error cause => exact closed.throw cause here

theorem refuse {γ : Type} {t : Token} (here : Here t.pos) (cause : Cause) :
    After t (Expression.refuse t cause : EStateM Error σ γ) :=
  closed.unread t (closed.throw cause here)

theorem expect (p : Punct) : P (Expression.expect p : EStateM Error σ Unit) := by
  refine closed.next fun t here => ?_
  split
  · exact closed.after (Token.inside_of_isPunct ‹_›) (closed.pure ())
  · exact closed.refuse here _

theorem comma : P (Expression.comma : EStateM Error σ Bool) := by
  refine closed.next fun t here => ?_
  split
  · exact closed.after (Token.inside_of_isPunct ‹_›) (closed.pure true)
  · exact closed.unread t (closed.pure false)

theorem expectRegister (register : String) : P (Operand.expectRegister register : EStateM Error σ Unit) := by
  refine closed.next fun t here => ?_
  split
  · obtain ⟨name, found, -⟩ := Option.map_eq_some_iff.1 ‹_›
    exact closed.after (Token.inside_of_identifier? found) (closed.pure ())
  · exact closed.fail t _ here

theorem missing : P (Expression.missing : EStateM Error σ α) := closed.next fun _ here => closed.refuse here _

theorem readIndex (a : α) : P (Operand.readIndex a : EStateM Error σ (Operand α)) := by
  refine closed.bind closed.comma fun more => ?_
  split
  · refine closed.next fun t here => ?_
    split
    · obtain ⟨name, found, -⟩ := Option.map_eq_some_iff.1 ‹_›
      exact closed.after (Token.inside_of_identifier? found) (closed.pure _)
    · obtain ⟨name, found, -⟩ := Option.map_eq_some_iff.1 ‹_›
      exact closed.after (Token.inside_of_identifier? found) (closed.pure _)
    · exact closed.fail t _ here
  · exact closed.pure _

variable [Arithmetic α]

/-- All four readers of one depth. -/
theorem atDepth (n : Nat) :
    (∀ least, P (Expression.climb least n : EStateM Error σ α))
      ∧ (∀ (left : α) least, P (Expression.climbFrom left least n : EStateM Error σ α))
      ∧ P (Expression.unary n : EStateM Error σ α) ∧ P (Expression.primary n : EStateM Error σ α) := by
  induction n with
  | zero =>
    refine ⟨fun least => ?_, fun left least => ?_, ?_, ?_⟩
    · rw [Expression.climb]; exact closed.missing
    · rw [Expression.climbFrom]; exact closed.pure left
    · rw [Expression.unary]; exact closed.missing
    · rw [Expression.primary]; exact closed.missing
  | succ n ih =>
    obtain ⟨climb, climbFrom, unary, primary⟩ := ih
    refine ⟨fun least => ?_, fun left least => ?_, ?_, ?_⟩
    · rw [Expression.climb]
      exact closed.bind unary fun left => climbFrom left least
    · rw [Expression.climbFrom]
      refine closed.next fun t here => ?_
      have stop : After t (do Expression.unread t; return left : EStateM Error σ α) := closed.unread t (closed.pure left)
      cases found : operator? t.lexeme with
      | none => exact stop
      | some mark =>
        dsimp only
        split
        · refine closed.after (Token.inside_of_operator? found) (closed.bind (climb _) fun right => ?_)
          exact closed.bind (closed.lift here _) fun value => climbFrom value least
        · exact stop
    · rw [Expression.unary]
      refine closed.next fun t here => ?_
      have signed {p : Punct} (f : α → Except Cause α) (found : t.lexeme = .punct p) :
          After t (do Expression.lift t.pos (f (← Expression.unary n))) :=
        closed.after (Token.inside_of_lexeme found rfl) (closed.bind unary fun _ => closed.lift here _)
      split
      · exact signed _ ‹_›
      · exact signed _ ‹_›
      · exact signed _ ‹_›
      · exact signed _ ‹_›
      · exact closed.after (Token.inside_of_lexeme ‹_› rfl) (closed.locating here unary)
      · exact closed.unread t primary
    · rw [Expression.primary]
      refine closed.next fun t here => ?_
      have nested {p : Punct} (close : Punct) (found : t.lexeme = .punct p) :
          After t (do let v ← Expression.climb 1 n; Expression.expect close; return v) := by
        refine closed.after (Token.inside_of_lexeme found rfl) (closed.bind (climb 1) fun v => ?_)
        exact closed.bind (closed.expect close) fun _ => closed.pure v
      split
      · exact closed.after (Token.inside_of_lexeme ‹_› rfl) (closed.pure _)
      · exact closed.after (Token.inside_of_lexeme ‹_› rfl) (closed.resolve _ here)
      · exact closed.after (Token.inside_of_lexeme ‹_› rfl) closed.location
      · exact nested .rparen ‹_›
      · exact nested .rbracket ‹_›
      · exact closed.refuse here _

theorem read : P (Expression.read : EStateM Error σ α) := closed.budget fun _ => (closed.atDepth _).1 1

theorem goOn (left : α) (least : Nat) : P (Expression.goOn left least : EStateM Error σ α) :=
  closed.budget fun _ => (closed.atDepth _).2.1 left least

theorem readInner : P (Operand.readInner : EStateM Error σ (Operand α)) := by
  refine closed.bind closed.read fun a => closed.next fun t here => ?_
  split
  · refine closed.after (Token.inside_of_isPunct ‹_›) (closed.bind (closed.expectRegister "X") fun _ => ?_)
    exact closed.bind (closed.expect .rparen) fun _ => closed.pure _
  · split
    · refine closed.after (Token.inside_of_isPunct ‹_›) (closed.bind closed.comma fun more => ?_)
      split
      · exact closed.bind (closed.expectRegister "Y") fun _ => closed.pure _
      · exact closed.pure _
    · exact closed.refuse here _

/-- Every property that is kept by the parts of a reading holds of reading an operand. -/
theorem operand : P (Operand.read : EStateM Error σ (Operand α)) := by
  refine closed.next fun t here => ?_
  have direct : After t (do Expression.unread t; Operand.readIndex (← Expression.read) : EStateM Error σ (Operand α)) :=
    closed.unread t (closed.bind closed.read fun a => closed.readIndex a)
  split
  · exact closed.unread t (closed.pure _)
  · exact closed.unread t (closed.pure _)
  · exact closed.after (Token.inside_of_lexeme ‹_› rfl) (closed.bind closed.read fun a => closed.pure _)
  · exact closed.after (Token.inside_of_lexeme ‹_› rfl) closed.readInner
  · rename_i name found
    split
    · refine closed.after (Token.inside_of_lexeme found rfl) (closed.next fun after _ => closed.unread after ?_)
      split
      · exact closed.pure _
      · refine closed.bind (closed.resolve _ here) fun left => ?_
        exact closed.bind (closed.goOn left 1) fun a => closed.readIndex a
    · exact direct
  · exact direct

end Closed

end Expression

end Asm65
