import Asm65.Proofs.Naming

/-!
# Two readings of one source

What a statement reads and which names it gives depends on the source alone and not on the values that names have.
So two passes that read the same tokens, and both succeed, go on to read the same tokens and give the same names.
`Twin` says this of two computations, with rules that follow the shape of the code; `Still` is for what neither
reads nor gives names.
-/

namespace Asm65
set_option autoImplicit false

/-- Nothing is computed. -/
instance : Arithmetic Unit where
  constant _ := ()
  binary _ _ _ := .ok ()
  negate _ := .ok ()
  complement _ := .ok ()
  select _ _ := .ok ()

namespace Assembler

variable {α α' β β' : Type}

/-- The same is left to read, and the same names have been given. -/
structure Abreast (s s' : Assembler) : Prop where
  tokens : s.tokens = s'.tokens
  given : s.given = s'.given

namespace Abreast

variable {s t u : Assembler}

theorem refl (s : Assembler) : Abreast s s := ⟨rfl, rfl⟩

theorem symm (h : Abreast s t) : Abreast t s := ⟨h.tokens.symm, h.given.symm⟩

theorem trans (h : Abreast s t) (k : Abreast t u) : Abreast s u := ⟨h.tokens.trans k.tokens, h.given.trans k.given⟩

end Abreast

/-- A computation that reads nothing and gives no names. -/
def Still (x : Asm α) : Prop := ∀ ⦃s a t⦄, x s = .ok a t → Abreast s t

namespace Still

variable {x : Asm α} {f : α → Asm β}

theorem pure (a : α) : Still (pure a) := by
  intro s b t run
  cases run
  exact .refl s

theorem fail (cause : Cause) (pos : Position) : Still (Asm.fail cause pos : Asm α) := by
  intro s b t run
  cases run

theorem bind (hx : Still x) (hf : ∀ a, Still (f a)) : Still (x >>= f) := by
  intro s b t run
  obtain ⟨a, u, first, rest⟩ := exists_of_bind_eq_ok run
  exact (hx first).trans (hf a rest)

theorem modify {g : Assembler → Assembler} (h : ∀ s, Abreast s (g s)) : Still (modify g) := by
  intro s b t run
  cases run
  exact h s

theorem get : Still (get : Asm Assembler) := by
  intro s b t run
  cases run
  exact .refl s

end Still

/-- Two computations that keep two states abreast where both succeed, with results that `R` relates. -/
def Twin (R : α → α' → Prop) (x : Asm α) (x' : Asm α') : Prop :=
  ∀ ⦃s s' t t' a a'⦄, Abreast s s' → x s = .ok a t → x' s' = .ok a' t' → Abreast t t' ∧ R a a'

namespace Twin

variable {R : α → α' → Prop} {R' : β → β' → Prop} {x : Asm α} {x' : Asm α'} {f : α → Asm β} {f' : α' → Asm β'}

theorem pure {a : α} {a' : α'} (h : R a a') : Twin R (pure a) (pure a') := by
  intro s s' t t' b b' abreast run run'
  cases run
  cases run'
  exact ⟨abreast, h⟩

theorem fail (cause : Cause) (pos : Position) : Twin R (Asm.fail cause pos) x' := by
  intro s s' t t' b b' abreast run run'
  cases run

/-- Nothing follows a failure. -/
theorem failThen (cause : Cause) (pos : Position) {y : Asm β'} : Twin R' (Asm.fail cause pos >>= f) y := by
  intro s s' t t' b b' abreast run run'
  cases run

theorem symm (h : Twin (fun a' a => R a a') x' x) : Twin R x x' := by
  intro s s' t t' a a' abreast run run'
  obtain ⟨abreast, related⟩ := h abreast.symm run' run
  exact ⟨abreast.symm, related⟩

theorem bind (hx : Twin R x x') (hf : ∀ a a', R a a' → Twin R' (f a) (f' a')) : Twin R' (x >>= f) (x' >>= f') := by
  intro s s' t t' b b' abreast run run'
  obtain ⟨a, u, first, rest⟩ := exists_of_bind_eq_ok run
  obtain ⟨a', u', first', rest'⟩ := exists_of_bind_eq_ok run'
  obtain ⟨abreast, related⟩ := hx abreast first first'
  exact hf a a' related abreast rest rest'

theorem of_still (h : Still x) (h' : Still x') : Twin (fun _ _ => True) x x' :=
  fun _ _ _ _ _ _ abreast run run' => ⟨((h run).symm.trans abreast).trans (h' run'), trivial⟩

/-- First something whose results are equal. -/
theorem same {x : Asm α} {f : α → Asm β} {f' : α → Asm β'} (hx : Twin Eq x x)
    (hf : ∀ a, Twin R' (f a) (f' a)) : Twin R' (x >>= f) (x >>= f') :=
  hx.bind fun a _ eq => eq ▸ hf a

end Twin

theorem twin_unit {x x' : Asm Unit} (h : Twin (fun _ _ => True) x x') : Twin Eq x x' :=
  fun _ _ _ _ _ _ abreast run run' => ⟨(h abreast run run').1, rfl⟩

section Reading

theorem twin_nextToken : Twin Eq Asm.nextToken Asm.nextToken := by
  intro s s' t t' a a' abreast run run'
  unfold Asm.nextToken at run run'
  rw [← abreast.tokens] at run'
  cases found : s.tokens.next with
  | mk outcome tokens =>
    rw [found] at run run'
    cases outcome with
    | error e => cases run
    | ok token =>
      cases run
      cases run'
      exact ⟨⟨rfl, abreast.given⟩, rfl⟩

theorem twin_unread (token : Token) : Twin Eq (Asm.unread token) (Asm.unread token) := by
  intro s s' t t' a a' abreast run run'
  cases run
  cases run'
  exact ⟨⟨by simp only [Asm.putBack, abreast.tokens], abreast.given⟩, rfl⟩

theorem twin_budget : Twin Eq Asm.budget Asm.budget := by
  intro s s' t t' a a' abreast run run'
  cases run
  cases run'
  exact ⟨abreast, by rw [abreast.tokens]⟩

theorem still_intern (name : String) (pos : Position) : Still (Asm.intern name pos) := by
  intro s id t run
  obtain ⟨identifiers, rfl⟩ := eq_of_intern run
  exact ⟨rfl, rfl⟩

theorem still_resolve (name : String) (pos : Position) : Still (Asm.resolve name pos) := by
  intro s a t run
  rw [resolve_eq] at run
  cases found : Asm.intern name pos s with
  | error e u => rw [found] at run; cases run
  | ok id u =>
    rw [found] at run
    cases run
    rw [lookUp_eq]
    exact (still_intern name pos found).trans ⟨rfl, rfl⟩

/-- Reading an expression, in a pass that has given the names `given`, is reading it without values. -/
def reading (given : List Naming) : Expression.Simulation Assembler (Scope Unit) Address Unit where
  state s scope := scope = ⟨s.tokens, fun _ => (), ()⟩ ∧ s.given = given
  value _ _ := True
  next := by
    rintro s s' scope token ⟨rfl, rfl⟩ h
    change Asm.nextToken s = _ at h
    unfold Asm.nextToken at h
    split at h
    · rename_i token' tokens found
      cases h
      refine ⟨⟨tokens, fun _ => (), ()⟩, ?_, rfl, rfl⟩
      show Scope.nextToken _ = _
      simp only [Scope.nextToken, found]
    · cases h
  unread := by
    rintro s scope token ⟨rfl, rfl⟩
    exact ⟨rfl, rfl⟩
  resolve := by
    rintro s s' scope name pos a ⟨rfl, rfl⟩ h
    have still := still_resolve name pos h
    exact ⟨(), _, rfl, ⟨by rw [still.tokens], still.given.symm⟩, trivial⟩
  location := fun _ => trivial
  budget := by
    rintro s scope ⟨rfl, rfl⟩
    rfl
  constant _ := trivial
  binary _ _ _ := ⟨(), rfl, trivial⟩
  negate _ _ := ⟨(), rfl, trivial⟩
  complement _ _ := ⟨(), rfl, trivial⟩
  select _ _ := ⟨(), rfl, trivial⟩

/-- What follows one reading without values keeps step with what does so too. -/
theorem twin_of_reading {x x' : Asm Address} {y : EStateM Error (Scope Unit) Unit}
    (h : ∀ given, (reading given).Follows (reading given).value x y)
    (h' : ∀ given, (reading given).Follows (reading given).value x' y) : Twin (fun _ _ => True) x x' := by
  intro s s' t t' a a' abreast run run'
  obtain ⟨_, scope, reads, ⟨rfl, given⟩, -⟩ := h s.given s t ⟨s.tokens, fun _ => (), ()⟩ a ⟨rfl, rfl⟩ run
  obtain ⟨_, scope, reads', ⟨rfl, given'⟩, -⟩ :=
    h' s.given s' t' ⟨s.tokens, fun _ => (), ()⟩ a' ⟨by rw [abreast.tokens], abreast.given.symm⟩ run'
  injection reads.symm.trans reads' with _ ended
  exact ⟨⟨congrArg Scope.tokens ended, given.trans given'.symm⟩, trivial⟩

theorem twin_expression : Twin (fun _ _ => True) Asm.expression Asm.expression :=
  twin_of_reading (fun _ => Expression.Simulation.read) fun _ => Expression.Simulation.read

theorem twin_goOn (left left' : Address) (least : Nat) :
    Twin (fun _ _ => True) (Expression.goOn left least : Asm Address) (Expression.goOn left' least) :=
  twin_of_reading (y := Expression.goOn () least) (fun _ => Expression.Simulation.goOn least trivial)
    fun _ => Expression.Simulation.goOn least trivial

theorem twin_expect (p : Punct) : Twin Eq (Expression.expect p : Asm Unit) (Expression.expect p) := by
  refine .same twin_nextToken fun token => ?_
  split
  · exact .pure rfl
  · exact .same (twin_unread token) fun _ _ _ _ _ _ _ _ run => by cases run

theorem twin_endOfStatement : Twin Eq Asm.endOfStatement Asm.endOfStatement := by
  refine .same twin_nextToken fun token => ?_
  split
  · exact .pure rfl
  · exact .same (twin_unread token) fun _ => .pure rfl
  · exact .fail _ _

theorem twin_comma : Twin Eq Asm.comma Asm.comma := by
  refine .same twin_nextToken fun token => ?_
  split
  · exact .pure rfl
  · exact .same (twin_unread token) fun _ => .pure rfl

theorem twin_condition : Twin Eq Asm.condition Asm.condition := by
  refine .same twin_nextToken fun token => ?_
  split
  · exact .pure rfl
  · exact .fail _ _

theorem twin_nextPosition : Twin Eq Asm.nextPosition Asm.nextPosition :=
  .same twin_nextToken fun token => .same (twin_unread token) fun _ => .pure rfl

theorem twin_expectRegister (register : String) :
    Twin Eq (Operand.expectRegister register : Asm Unit) (Operand.expectRegister register) := by
  refine .same twin_nextToken fun token => ?_
  split
  · exact .pure rfl
  · exact .fail _ _

/-- Operands are read alike, whatever their values. -/
abbrev Alike {α : Type} (x x' : Asm α) : Prop := Twin (fun _ _ => True) x x'

theorem alike_readIndex (a a' : Address) : Alike (Operand.readIndex a : Asm (Operand Address)) (Operand.readIndex a') := by
  refine .same twin_comma fun more => ?_
  split
  · refine .same twin_nextToken fun token => ?_
    split
    · exact .pure trivial
    · exact .pure trivial
    · exact .fail _ _
  · exact .pure trivial

theorem alike_readInner : Alike (Operand.readInner : Asm (Operand Address)) Operand.readInner := by
  refine twin_expression.bind fun a a' _ => .same twin_nextToken fun token => ?_
  split
  · exact .same (twin_expectRegister "X") fun _ => .same (twin_expect .rparen) fun _ => .pure trivial
  · split
    · refine .same twin_comma fun more => ?_
      split
      · exact .same (twin_expectRegister "Y") fun _ => .pure trivial
      · exact .pure trivial
    · exact .same (twin_unread token) fun _ => .fail _ _

/-- Operands are read alike in two states: which form is read depends on tokens alone, not on values. -/
theorem alike_operand : Alike Asm.operand Asm.operand := by
  refine .same twin_nextToken fun token => ?_
  have direct : Alike (do Asm.unread token; Operand.readIndex (← Asm.expression))
      (do Asm.unread token; Operand.readIndex (← Asm.expression)) :=
    .same (twin_unread token) fun _ => twin_expression.bind fun a a' _ => alike_readIndex a a'
  split
  · exact .same (twin_unread token) fun _ => .pure trivial
  · exact .same (twin_unread token) fun _ => .pure trivial
  · exact twin_expression.bind fun _ _ _ => .pure trivial
  · exact alike_readInner
  · split
    · refine .same twin_nextToken fun after => .same (twin_unread after) fun _ => ?_
      split
      · exact .pure trivial
      · refine Twin.bind (.of_still (still_resolve _ _) (still_resolve _ _)) fun left left' _ => ?_
        exact (twin_goOn left left' 1).bind fun a a' _ => alike_readIndex a a'
    · exact direct
  · exact direct

end Reading

end Assembler

end Asm65
