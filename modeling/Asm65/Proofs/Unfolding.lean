import Asm65.Error

/-!
# Recursion without a bound

A recursion is what it makes of its own calls. It comes to an end on an argument if the calls within some depth decide
the answer, whatever deeper calls would give. The answer is then unique, and a recursion that counts its depth and is
given enough of it gives the same.
-/

namespace Asm65
set_option autoImplicit false

variable {φ β : Type}

/-- The calls of a recursion down to a depth, with `out` for the calls below. -/
def unfolded (F : φ → φ) (out : φ) : Nat → φ
  | 0 => out
  | n + 1 => F (unfolded F out n)

/-- The recursion `F` comes to an end, with the answer `r` to what `view` asks of it. -/
def Ends (F : φ → φ) (view : φ → β) (r : β) : Prop := ∃ n, ∀ out, view (unfolded F out n) = r

namespace Ends

variable {F : φ → φ} {view : φ → β} {r r' : β}

theorem unfolded_add (out : φ) (n m : Nat) : unfolded F out (n + m) = unfolded F (unfolded F out m) n := by
  induction n with
  | zero => rw [Nat.zero_add]; rfl
  | succ n ih =>
    rw [Nat.add_right_comm]
    exact congrArg F ih

/-- Every greater depth does. -/
theorem eventually (h : Ends F view r) : ∃ n, ∀ m, n ≤ m → ∀ out, view (unfolded F out m) = r := by
  obtain ⟨n, ends⟩ := h
  refine ⟨n, fun m deeper out => ?_⟩
  rw [← Nat.add_sub_cancel' deeper, unfolded_add]
  exact ends _

theorem unique (out : φ) (h : Ends F view r) (h' : Ends F view r') : r = r' := by
  obtain ⟨n, ends⟩ := h.eventually
  obtain ⟨n', ends'⟩ := h'.eventually
  rw [← ends (max n n') (Nat.le_max_left ..) out, ends' (max n n') (Nat.le_max_right ..) out]

/-- What asks for nothing. -/
theorem const (r : β) : Ends F (fun _ => r) r := ⟨0, fun _ => rfl⟩

/-- A call is what the recursion makes of its calls. -/
theorem call (h : Ends F (fun f => view (F f)) r) : Ends F view r := by
  obtain ⟨n, ends⟩ := h
  exact ⟨n + 1, ends⟩

variable {ε σ γ δ : Type} {x : φ → EStateM ε σ γ} {g : φ → γ → EStateM ε σ δ} {s t : σ}

theorem bind {a : γ} {r : EStateM.Result ε σ δ} (first : Ends F (fun f => x f s) (.ok a t))
    (rest : Ends F (fun f => g f a t) r) : Ends F (fun f => (x f >>= g f) s) r := by
  obtain ⟨n, first⟩ := first.eventually
  obtain ⟨m, rest⟩ := rest.eventually
  refine ⟨max n m, fun out => ?_⟩
  show EStateM.bind _ _ s = r
  rw [EStateM.bind, first _ (Nat.le_max_left ..) out]
  exact rest _ (Nat.le_max_right ..) out

theorem bind_error {e : ε} (first : Ends F (fun f => x f s) (.error e t)) :
    Ends F (fun f => (x f >>= g f) s) (.error e t) := by
  obtain ⟨n, first⟩ := first
  refine ⟨n, fun out => ?_⟩
  have failed : x (unfolded F out n) s = .error e t := first out
  show EStateM.bind _ _ s = _
  rw [EStateM.bind, failed]

end Ends

/-! ### Smaller arguments -/

section Descends

variable {ι : Type} {view : ι → φ → β} {F : φ → φ} {measure : ι → Nat} {P : ι → Prop} {Q : ι → β → Prop}

/-- For an argument with `P` the recursion asks only for smaller arguments with `P`. It may use that the answers to
them have `Q`, and its own answer has `Q`. -/
def Descends (F : φ → φ) (view : ι → φ → β) (measure : ι → Nat) (P : ι → Prop) (Q : ι → β → Prop) : Prop :=
  ∀ ⦃f g i⦄, P i → (∀ j, P j → measure j < measure i → view j f = view j g ∧ Q j (view j f)) →
    view i (F f) = view i (F g) ∧ Q i (view i (F f))

/-- Calls below the measure of the argument are never reached. -/
theorem Descends.decided (h : Descends F view measure P Q) (out out' : φ) {n : Nat} {i : ι} (hi : P i)
    (enough : measure i < n) :
    view i (unfolded F out n) = view i (unfolded F out' n) ∧ Q i (view i (unfolded F out n)) := by
  induction n generalizing i with
  | zero => exact absurd enough (Nat.not_lt_zero _)
  | succ n ih => exact h hi fun j hj smaller => ih hj (Nat.lt_of_lt_of_le smaller (Nat.le_of_lt_succ enough))

theorem Descends.ends (h : Descends F view measure P Q) (out : φ) {n : Nat} {i : ι} (hi : P i)
    (enough : measure i < n) : Ends F (view i) (view i (unfolded F out n)) :=
  ⟨n, fun out' => (h.decided out' out hi enough).1⟩

end Descends

/-- What follows a computation matters only where it succeeds. -/
theorem bind_eq_bind {ε σ γ δ : Type} {x : EStateM ε σ γ} {f g : γ → EStateM ε σ δ} {s : σ}
    (h : ∀ a t, x s = .ok a t → f a t = g a t) : (x >>= f) s = (x >>= g) s := by
  show EStateM.bind x f s = EStateM.bind x g s
  unfold EStateM.bind
  cases run : x s with
  | ok a t => exact h a t run
  | error e t => rfl

end Asm65
