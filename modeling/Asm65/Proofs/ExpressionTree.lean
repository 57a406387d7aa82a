import Asm65.Assembly.Instruction
import Asm65.Proofs.Reading

/-!
# Expressions as trees

Tokens can be read without any values: what is read then is the tree of an expression. A reading that computes with
values reads the same tree, and its result is the value of the tree. So two readings of the same tokens evaluate one
tree, each with values of its own. The same goes for operands.
-/

namespace Asm65
set_option autoImplicit false

namespace Expression

inductive Tree where
  | number (v : UInt16)
  | name (n : String)
  /-- `*` -/
  | location
  | binary (op : Operator) (l r : Tree)
  | negate (t : Tree)
  | complement (t : Tree)
  | select (part : Part) (t : Tree)

instance : Arithmetic Tree where
  constant := .number
  binary op l r := .ok (.binary op l r)
  negate t := .ok (.negate t)
  complement t := .ok (.complement t)
  select part t := .ok (.select part t)

namespace Tree

variable {α : Type} [Arithmetic α]

/-- The value of an expression. -/
def eval (names : String → α) (here : α) : Tree → Except Cause α
  | number v => .ok (Arithmetic.constant v)
  | name n => .ok (names n)
  | location => .ok here
  | binary op l r => do Arithmetic.binary op (← l.eval names here) (← r.eval names here)
  | negate t => do Arithmetic.negate (← t.eval names here)
  | complement t => do Arithmetic.complement (← t.eval names here)
  | select part t => do Arithmetic.select part (← t.eval names here)

/-- The scope in which everything stands for itself. -/
def scope (tokens : TokenStream) : Scope Tree := ⟨tokens, name, location⟩

end Tree

section

variable {α : Type} [Arithmetic α]

/-- Reading in a scope is reading a tree and evaluating it. -/
def evaluation (names : String → α) (here : α) : Simulation (Scope α) (Scope Tree) α Tree where
  state s t := ∃ tokens, s = ⟨tokens, names, here⟩ ∧ t = Tree.scope tokens
  value a t := t.eval names here = .ok a
  next := by
    rintro _ s' _ token ⟨tokens, rfl, rfl⟩ h
    change Scope.nextToken _ = _ at h
    unfold Scope.nextToken at h
    cases found : tokens.next with
    | mk outcome rest =>
      dsimp only at h
      rw [found] at h
      cases outcome with
      | error e => cases h
      | ok t =>
        cases h
        refine ⟨Tree.scope rest, ?_, rest, rfl, rfl⟩
        show Scope.nextToken (Tree.scope tokens) = _
        simp only [Scope.nextToken, Tree.scope, found]
  unread := by
    rintro _ _ token ⟨tokens, rfl, rfl⟩
    exact ⟨tokens.unread token, rfl, rfl⟩
  resolve := by
    rintro _ s' _ n pos a ⟨tokens, rfl, rfl⟩ h
    cases h
    exact ⟨.name n, _, rfl, ⟨tokens, rfl, rfl⟩, rfl⟩
  location := by
    rintro _ _ ⟨tokens, rfl, rfl⟩
    rfl
  budget := by
    rintro _ _ ⟨tokens, rfl, rfl⟩
    rfl
  constant _ := rfl
  binary := by
    rintro op l r a l' r' left right h
    exact ⟨_, rfl, by simp only [Tree.eval, left, right]; exact h⟩
  negate := by
    rintro l a l' operand h
    exact ⟨_, rfl, by simp only [Tree.eval, operand]; exact h⟩
  complement := by
    rintro l a l' operand h
    exact ⟨_, rfl, by simp only [Tree.eval, operand]; exact h⟩
  select := by
    rintro part l a l' operand h
    exact ⟨_, rfl, by simp only [Tree.eval, operand]; exact h⟩

end

end Expression

/-! ### Operands -/

/-- Operands of the same form, with related addresses. -/
inductive Operand.Relates {α β : Type} (R : α → β → Prop) : Operand α → Operand β → Prop where
  | none : Relates R .none .none
  | accumulator : Relates R .accumulator .accumulator
  | immediate {a : α} {b : β} (h : R a b) : Relates R (.immediate a) (.immediate b)
  | direct {a : α} {b : β} (h : R a b) (index : Index) : Relates R (.direct a index) (.direct b index)
  | indirect {a : α} {b : β} (h : R a b) : Relates R (.indirect a) (.indirect b)
  | indexedIndirect {a : α} {b : β} (h : R a b) : Relates R (.indexedIndirect a) (.indexedIndirect b)
  | indirectIndexed {a : α} {b : β} (h : R a b) : Relates R (.indirectIndexed a) (.indirectIndexed b)

theorem Operand.Relates.eq {α : Type} {o o' : Operand α} (h : Relates Eq o o') : o = o' := by
  cases h with
  | none | accumulator => rfl
  | immediate h | direct h | indirect h | indexedIndirect h | indirectIndexed h => rw [h]

namespace Expression.Simulation

variable {σ τ α β : Type} [Arithmetic α] [Arithmetic β] [Operands σ α] [Operands τ β] {sim : Simulation σ τ α β}

theorem Follows.comma : sim.Follows Eq (Expression.comma : EStateM Error σ Bool) Expression.comma := by
  refine .bind .nextToken fun t _ same => ?_
  subst same
  split
  · exact .pure rfl
  · exact .bind (.unread t) fun _ _ _ => .pure rfl

theorem Follows.expectRegister (register : String) :
    sim.Follows Eq (Operand.expectRegister register : EStateM Error σ Unit) (Operand.expectRegister register) := by
  refine .bind .nextToken fun t _ same => ?_
  subst same
  split
  · exact .pure rfl
  · exact .throw

theorem Follows.readInner : sim.Follows (Operand.Relates sim.value) Operand.readInner Operand.readInner := by
  refine .bind read fun a b value => .bind .nextToken fun t _ same => ?_
  subst same
  split
  · exact .bind (.expectRegister "X") fun _ _ _ => .bind (.expect .rparen) fun _ _ _ => .pure (.indexedIndirect value)
  · split
    · refine .bind .comma fun more _ same => ?_
      subst same
      split
      · exact .bind (.expectRegister "Y") fun _ _ _ => .pure (.indirectIndexed value)
      · exact .pure (.indirect value)
    · exact .refuse

theorem Follows.readIndex {a : α} {b : β} (value : sim.value a b) :
    sim.Follows (Operand.Relates sim.value) (Operand.readIndex a) (Operand.readIndex b) := by
  refine .bind .comma fun more _ same => ?_
  subst same
  split
  · refine .bind .nextToken fun t _ same => ?_
    subst same
    split
    · exact .pure (.direct value .x)
    · exact .pure (.direct value .y)
    · exact .throw
  · exact .pure (.direct value .none)

/-- An operand read in the first surroundings reads in the second, in the same form and with a related address. -/
theorem operand : sim.Follows (Operand.Relates sim.value) Operand.read Operand.read := by
  refine .bind .nextToken fun t _ same => ?_
  subst same
  have direct : sim.Follows (Operand.Relates sim.value) (do Expression.unread t; Operand.readIndex (← Expression.read))
      (do Expression.unread t; Operand.readIndex (← Expression.read)) :=
    .bind (.unread t) fun _ _ _ => .bind read fun _ _ value => .readIndex value
  split
  · exact .bind (.unread t) fun _ _ _ => .pure .none
  · exact .bind (.unread t) fun _ _ _ => .pure .none
  · exact .bind read fun _ _ value => .pure (.immediate value)
  · exact .readInner
  · split
    · refine .bind .nextToken fun after _ same => ?_
      subst same
      refine .bind (.unread after) fun _ _ _ => ?_
      split
      · exact .pure .accumulator
      · refine .bind (R := sim.value) (fun _ _ _ _ rel h => sim.resolve rel h) fun l l' left => ?_
        exact .bind (goOn 1 left) fun _ _ value => .readIndex value
    · exact direct
  · exact direct

end Expression.Simulation

end Asm65
