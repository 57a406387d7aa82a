import Asm65.Expression.Basic

/-!
# Two readings of one expression

The same tokens can be read in two surroundings that give names different values, and even compute with
different kinds of values. If both hand out the same tokens, and every operation that one accepts the other
accepts with a related result, then a reading that succeeds in the first succeeds in the second, takes the
same tokens and ends with a related value.
-/

namespace Asm65.Expression
set_option autoImplicit false

variable {σ τ α β : Type} [Arithmetic α] [Arithmetic β] [Operands σ α] [Operands τ β]

/-- Relations between surroundings and between values that every step of a reading keeps. -/
structure Simulation (σ τ α β : Type) [Arithmetic α] [Arithmetic β] [Operands σ α] [Operands τ β] where
  state : σ → τ → Prop
  value : α → β → Prop
  next {s s' : σ} {t : τ} {token : Token} (rel : state s t) (h : Operands.next s = .ok token s') :
    ∃ t', Operands.next t = .ok token t' ∧ state s' t'
  unread {s : σ} {t : τ} (token : Token) (rel : state s t) : state (Operands.unread token s) (Operands.unread token t)
  resolve {s s' : σ} {t : τ} {name : String} {pos : Position} {a : α} (rel : state s t)
    (h : Operands.resolve name pos s = .ok a s') :
    ∃ b t', Operands.resolve name pos t = .ok b t' ∧ state s' t' ∧ value a b
  location {s : σ} {t : τ} (rel : state s t) : value (Operands.location s) (Operands.location t)
  budget {s : σ} {t : τ} (rel : state s t) : Operands.budget s = Operands.budget t
  constant (v : UInt16) : value (Arithmetic.constant v) (Arithmetic.constant v)
  binary {op : Operator} {l r a : α} {l' r' : β} (left : value l l') (right : value r r')
    (h : Arithmetic.binary op l r = .ok a) : ∃ b, Arithmetic.binary op l' r' = .ok b ∧ value a b
  negate {l a : α} {l' : β} (operand : value l l') (h : Arithmetic.negate l = .ok a) :
    ∃ b, Arithmetic.negate l' = .ok b ∧ value a b
  complement {l a : α} {l' : β} (operand : value l l') (h : Arithmetic.complement l = .ok a) :
    ∃ b, Arithmetic.complement l' = .ok b ∧ value a b
  select {part : Part} {l a : α} {l' : β} (operand : value l l') (h : Arithmetic.select part l = .ok a) :
    ∃ b, Arithmetic.select part l' = .ok b ∧ value a b

namespace Simulation

variable {γ δ γ' δ' : Type} (sim : Simulation σ τ α β)

/-- Where `x` succeeds, so does `y`, with results that `R` relates. -/
def Follows (R : γ → δ → Prop) (x : EStateM Error σ γ) (y : EStateM Error τ δ) : Prop :=
  ∀ (s s' : σ) (t : τ) (a : γ), sim.state s t → x s = .ok a s' →
    ∃ b t', y t = .ok b t' ∧ sim.state s' t' ∧ R a b

variable {sim}

theorem Follows.pure {R : γ → δ → Prop} {a : γ} {b : δ} (h : R a b) :
    sim.Follows R (Pure.pure a) (Pure.pure b) := by
  intro s s' t a' rel run
  cases run
  exact ⟨b, t, rfl, rel, h⟩

theorem Follows.bind {R : γ → δ → Prop} {R' : γ' → δ' → Prop} {x : EStateM Error σ γ} {y : EStateM Error τ δ}
    {f : γ → EStateM Error σ γ'} {g : δ → EStateM Error τ δ'} (hx : sim.Follows R x y)
    (hf : ∀ a b, R a b → sim.Follows R' (f a) (g b)) : sim.Follows R' (x >>= f) (y >>= g) := by
  intro s s' t a rel run
  change EStateM.bind x f s = .ok a s' at run
  unfold EStateM.bind at run
  split at run
  · rename_i c s₁ hc
    obtain ⟨d, t₁, hd, rel₁, hcd⟩ := hx _ _ _ _ rel hc
    obtain ⟨b, t', hb, rel', hab⟩ := hf c d hcd _ _ _ _ rel₁ run
    refine ⟨b, t', ?_, rel', hab⟩
    change EStateM.bind y g t = .ok b t'
    simp only [EStateM.bind, hd, hb]
  · cases run

theorem Follows.throw {R : γ → δ → Prop} {e : Error} {y : EStateM Error τ δ} :
    sim.Follows R (throw e) y := by
  intro s s' t a rel run
  cases run

theorem Follows.get : sim.Follows sim.state get get := by
  intro s s' t a rel run
  cases run
  exact ⟨t, t, rfl, rel, rel⟩

theorem Follows.nextToken : sim.Follows Eq (Operands.next : EStateM Error σ Token) Operands.next := by
  intro s s' t token rel run
  obtain ⟨t', ht, rel'⟩ := sim.next rel run
  exact ⟨token, t', ht, rel', rfl⟩

theorem Follows.unread (token : Token) :
    sim.Follows Eq (Expression.unread token : EStateM Error σ Unit) (Expression.unread token) := by
  intro s s' t a rel run
  cases run
  exact ⟨(), _, rfl, sim.unread token rel, rfl⟩

theorem Follows.lift {pos : Position} {x : Except Cause α} {y : Except Cause β}
    (h : ∀ a, x = .ok a → ∃ b, y = .ok b ∧ sim.value a b) :
    sim.Follows sim.value (Expression.lift pos x) (Expression.lift pos y) := by
  cases x with
  | ok a =>
    obtain ⟨b, rfl, hab⟩ := h a rfl
    exact .pure hab
  | error cause => exact .throw

theorem Follows.locating {pos : Position} {x : EStateM Error σ α} {y : EStateM Error τ β}
    (h : sim.Follows sim.value x y) :
    sim.Follows sim.value (Expression.locating pos x) (Expression.locating pos y) := by
  intro s s' t a rel run
  unfold Expression.locating at run
  split at run
  · rename_i c s₁ hc
    cases run
    obtain ⟨b, t', hb, rel', hab⟩ := h _ _ _ _ rel hc
    exact ⟨b, t', by simp only [Expression.locating, hb], rel', hab⟩
  · cases run

theorem Follows.refuse {R : γ → δ → Prop} {token : Token} {cause : Cause} {y : EStateM Error τ δ} :
    sim.Follows R (Expression.refuse token cause) y := by
  intro s s' t a rel run
  cases run

theorem Follows.missing {y : EStateM Error τ β} : sim.Follows sim.value (Expression.missing : EStateM Error σ α) y := by
  intro s s' t a rel run
  change EStateM.bind _ _ s = .ok a s' at run
  unfold EStateM.bind at run
  split at run <;> cases run

theorem Follows.expect (p : Punct) :
    sim.Follows Eq (Expression.expect p : EStateM Error σ Unit) (Expression.expect p) := by
  refine .bind .nextToken fun t _ same => ?_
  subst same
  split
  · exact .pure rfl
  · exact .refuse

/-- All four readers of one depth keep step. -/
structure AtDepth (sim : Simulation σ τ α β) (n : Nat) : Prop where
  climb (least : Nat) : sim.Follows sim.value (Expression.climb least n) (Expression.climb least n)
  climbFrom {l : α} {l' : β} (least : Nat) (left : sim.value l l') :
    sim.Follows sim.value (Expression.climbFrom l least n) (Expression.climbFrom l' least n)
  unary : sim.Follows sim.value (Expression.unary n) (Expression.unary n)
  primary : sim.Follows sim.value (Expression.primary n) (Expression.primary n)

theorem climb_succ {n : Nat} (ih : AtDepth sim n) (least : Nat) :
    sim.Follows sim.value (Expression.climb least (n + 1)) (Expression.climb least (n + 1)) := by
  rw [Expression.climb, Expression.climb]
  exact .bind ih.unary fun _ _ left => ih.climbFrom least left

/-- Climbing keeps step, if the readers one step less deep do. -/
theorem climbFrom_succ {n : Nat} (ih : AtDepth sim n) {l : α} {l' : β} (least : Nat) (left : sim.value l l') :
    sim.Follows sim.value (Expression.climbFrom l least (n + 1)) (Expression.climbFrom l' least (n + 1)) := by
  rw [Expression.climbFrom, Expression.climbFrom]
  refine .bind .nextToken fun t _ same => ?_
  subst same
  have stop : sim.Follows sim.value (do Expression.unread t; return l) (do Expression.unread t; return l') :=
    .bind (.unread t) fun _ _ _ => .pure left
  cases operator? t.lexeme with
  | none => exact stop
  | some found =>
    obtain ⟨op, precedence⟩ := found
    dsimp only
    split
    · refine .bind (ih.climb _) fun r r' right => ?_
      refine .bind (.lift fun a h => sim.binary left right h) fun v v' value => ?_
      exact ih.climbFrom least value
    · exact stop

theorem unary_succ {n : Nat} (ih : AtDepth sim n) :
    sim.Follows sim.value (Expression.unary (n + 1)) (Expression.unary (n + 1)) := by
  rw [Expression.unary, Expression.unary]
  refine .bind .nextToken fun t _ same => ?_
  subst same
  split
  · exact .bind ih.unary fun _ _ operand => .lift fun _ h => sim.negate operand h
  · exact .bind ih.unary fun _ _ operand => .lift fun _ h => sim.complement operand h
  · exact .bind ih.unary fun _ _ operand => .lift fun _ h => sim.select operand h
  · exact .bind ih.unary fun _ _ operand => .lift fun _ h => sim.select operand h
  · exact .locating ih.unary
  · exact .bind (.unread t) fun _ _ _ => ih.primary

/-- Primaries keep step, if the readers one step less deep do. -/
theorem primary_succ {n : Nat} (ih : AtDepth sim n) :
    sim.Follows sim.value (Expression.primary (n + 1)) (Expression.primary (n + 1)) := by
  rw [Expression.primary, Expression.primary]
  refine .bind .nextToken fun t _ same => ?_
  subst same
  have nested (close : Punct) : sim.Follows sim.value
      (do let v ← Expression.climb 1 n; Expression.expect close; return v)
      (do let v ← Expression.climb 1 n; Expression.expect close; return v) :=
    .bind (ih.climb 1) fun _ _ value => .bind (.expect close) fun _ _ _ => .pure value
  split
  · exact .pure (sim.constant _)
  · exact fun _ _ _ _ rel h => sim.resolve rel h
  · exact .bind .get fun _ _ rel => .pure (sim.location rel)
  · exact nested .rparen
  · exact nested .rbracket
  · exact .refuse

theorem atDepth (n : Nat) : AtDepth sim n := by
  induction n with
  | zero =>
    refine ⟨fun least => ?_, fun least left => ?_, ?_, ?_⟩
    · rw [Expression.climb]; exact .missing
    · rw [Expression.climbFrom, Expression.climbFrom]; exact .pure left
    · rw [Expression.unary]; exact .missing
    · rw [Expression.primary]; exact .missing
  | succ n ih => exact ⟨climb_succ ih, climbFrom_succ ih, unary_succ ih, primary_succ ih⟩

/-- A whole expression read in the first surroundings reads in the second, with a related value. -/
theorem read : sim.Follows sim.value Expression.read Expression.read := by
  refine .bind .get fun s t rel => ?_
  rw [sim.budget rel]
  exact (atDepth _).climb 1

/-- So do the operators after an operand. -/
theorem goOn {l : α} {l' : β} (least : Nat) (left : sim.value l l') :
    sim.Follows sim.value (Expression.goOn l least) (Expression.goOn l' least) := by
  refine .bind .get fun s t rel => ?_
  rw [sim.budget rel]
  exact (atDepth _).climbFrom least left

end Simulation

end Asm65.Expression
