import Asm65.Proofs.Growth

/-!
# Rules for what a computation does

`Does R P x Q` says of a computation that from every sound state with `P` it only takes steps that `R` allows,
whether it succeeds or fails, and that `Q` holds of its result if it succeeds. `R` is `Acts` for what stays
outside blocks and `Steps` for the rest. The rules follow the shape of the code.
-/

namespace Asm65.Assembler
set_option autoImplicit false

/-- A way to walk from state to state. -/
class Walk (R : Assembler → Assembler → Prop) : Prop where
  refl (s : Assembler) : R s s
  trans {s t u : Assembler} : R s t → R t u → R s u
  steps {s t : Assembler} : R s t → Steps s t

instance (ids : List SymbolId) : Walk (Acts ids) := ⟨fun _ => .refl, .trans, Acts.steps⟩

instance : Walk Steps := ⟨fun _ => .refl, .trans, id⟩

variable {R : Assembler → Assembler → Prop} {ids : List SymbolId} {α β : Type} {P P' F : Assembler → Prop}
  {Q : α → Assembler → Prop} {Q' : β → Assembler → Prop} {x : Asm α} {f : α → Asm β}

/-- From a sound state with `P`, `x` walks along `R`, and leaves its result and state with `Q`. -/
def Does (R : Assembler → Assembler → Prop) (P : Assembler → Prop) (x : Asm α) (Q : α → Assembler → Prop) : Prop :=
  ∀ s, s.Sound → P s →
    (∀ a t, x s = .ok a t → R s t ∧ Q a t) ∧ (∀ e t, x s = .error e t → R s t)

/-- What `F` says of a state stays true along `R`. -/
def Stable (R : Assembler → Assembler → Prop) (F : Assembler → Prop) : Prop :=
  ∀ s t, s.Sound → R s t → F s → F t

namespace Does

theorem pre (h : Does R P x Q) (hp : ∀ s, s.Sound → P' s → P s) : Does R P' x Q :=
  fun s sound hs => h s sound (hp s sound hs)

theorem post (h : Does R P x Q) {Q₁ : α → Assembler → Prop} (hq : ∀ a s, Q a s → Q₁ a s) : Does R P x Q₁ := by
  intro s sound hp
  obtain ⟨ok, error⟩ := h s sound hp
  exact ⟨fun a t run => (ok a t run).imp_right (hq a t), error⟩

/-- A computation that depends on the state it starts from. -/
theorem atState (h : ∀ s, s.Sound → P s → Does R (· = s) x Q) : Does R P x Q :=
  fun s sound hp => h s sound hp s sound rfl

/-- The computation from one state. -/
theorem fromState (h : Does R P x Q) {s : Assembler} (hp : P s) : Does R (· = s) x Q :=
  fun t sound same => h t sound (same ▸ hp)

theorem frame (h : Does R P x Q) (stable : Stable R F) :
    Does R (fun s => P s ∧ F s) x (fun a s => Q a s ∧ F s) := by
  intro s sound ⟨hp, hf⟩
  obtain ⟨ok, error⟩ := h s sound hp
  refine ⟨fun a t run => ?_, error⟩
  obtain ⟨walk, hq⟩ := ok a t run
  exact ⟨walk, hq, stable s t sound walk hf⟩

/-- The same along steps that are allowed as well. -/
theorem along {R' : Assembler → Assembler → Prop} (h : Does R P x Q) (wider : ∀ {s t}, s.Sound → R s t → R' s t) :
    Does R' P x Q := by
  intro s sound hp
  obtain ⟨ok, error⟩ := h s sound hp
  exact ⟨fun a t run => ⟨wider sound (ok a t run).1, (ok a t run).2⟩, fun e t run => wider sound (error e t run)⟩

theorem steps (h : Does (Acts ids) P x Q) : Does Steps P x Q := h.along fun _ => Acts.steps

/-- A computation whose result is known in each state. -/
theorem ofResult
    (h : ∀ s, s.Sound → P s →
      match x s with
      | .ok a t => R s t ∧ Q a t
      | .error _ t => R s t) : Does R P x Q := by
  intro s sound hp
  have result := h s sound hp
  refine ⟨fun a t run => ?_, fun e t run => ?_⟩
  · rwa [run] at result
  · rwa [run] at result

/-- A computation that fails or succeeds, and takes an allowed step either way. -/
theorem ofOutcome
    (h : ∀ s, s.Sound → P s → (∃ e t, x s = .error e t ∧ R s t) ∨ ∃ a t, x s = .ok a t ∧ R s t ∧ Q a t) :
    Does R P x Q := by
  refine .ofResult fun s sound hp => ?_
  obtain ⟨e, t, run, walk⟩ | ⟨a, t, run, walk, hq⟩ := h s sound hp
  · rw [run]
    exact walk
  · rw [run]
    exact ⟨walk, hq⟩

/-- A computation that either fails and leaves the state or takes an allowed step. -/
theorem ofRun [Walk R] (h : ∀ s, s.Sound → P s → (∃ e, x s = .error e s) ∨ ∃ a t, x s = .ok a t ∧ R s t ∧ Q a t) :
    Does R P x Q :=
  .ofOutcome fun s sound hp => (h s sound hp).imp_left fun ⟨e, run⟩ => ⟨e, s, run, Walk.refl s⟩

theorem throw (e : Error) [Walk R] : Does R P (throw e : Asm α) Q := .ofResult fun s _ _ => Walk.refl s

theorem fail (cause : Cause) (pos : Position) [Walk R] : Does R P (Asm.fail cause pos : Asm α) Q := throw _

/-- Nothing follows a failure. -/
theorem failThen (cause : Cause) (pos : Position) [Walk R] : Does R P (Asm.fail cause pos >>= f) Q' :=
  .ofResult fun s _ _ => Walk.refl s

/-- A computation that first looks at the state. -/
theorem getThen {f : Assembler → Asm β} (h : ∀ s, s.Sound → P s → Does R (· = s) (f s) Q') :
    Does R P (MonadState.get >>= f) Q' :=
  fun s sound hp => h s sound hp s sound rfl

theorem modify {g : Assembler → Assembler} {Q : Unit → Assembler → Prop}
    (h : ∀ s, s.Sound → P s → R s (g s) ∧ Q () (g s)) : Does R P (modify g) Q := .ofResult h

variable [Walk R]

theorem pure {a : α} (h : ∀ s, s.Sound → P s → Q a s) : Does R P (pure a) Q :=
  .ofResult fun s sound hp => ⟨Walk.refl s, h s sound hp⟩

/-- One computation after another: the state and result of the first are what the second starts from. -/
theorem bind (hx : Does R P x Q) (hf : ∀ a, Does R (Q a) (f a) Q') : Does R P (x >>= f) Q' := by
  intro s sound hp
  obtain ⟨ok, error⟩ := hx s sound hp
  have unfolded : (x >>= f) s = EStateM.bind x f s := rfl
  rw [unfolded]
  unfold EStateM.bind
  cases hs : x s with
  | ok a t =>
    obtain ⟨walk, hq⟩ := ok a t hs
    obtain ⟨ok', error'⟩ := hf a t (sound.steps (Walk.steps walk)) hq
    refine ⟨fun b u run => ?_, fun e u run => Walk.trans walk (error' e u run)⟩
    obtain ⟨walk', hq'⟩ := ok' b u run
    exact ⟨Walk.trans walk walk', hq'⟩
  | error e t =>
    refine ⟨fun b u run => (by cases run), fun e' u run => ?_⟩
    cases run
    exact error e t hs

/-- What follows may use how the first part ran. -/
theorem bindFrom {s : Assembler} (hx : Does R (· = s) x Q)
    (hf : ∀ a t, x s = .ok a t → t.Sound → Q a t → Does R (· = t) (f a) Q') : Does R (· = s) (x >>= f) Q' := by
  have ran : Does R (· = s) x (fun a t => x s = .ok a t ∧ Q a t) := by
    rintro s sound rfl
    obtain ⟨ok, error⟩ := hx s sound rfl
    exact ⟨fun a t run => ⟨(ok a t run).1, run, (ok a t run).2⟩, error⟩
  exact ran.bind fun a t sound done => hf a t done.1 sound done.2 t sound rfl

/-- First something that `F` survives. -/
theorem bindKeeping (hx : Does R (fun _ => True) x Q) (stable : Stable R F)
    (hf : ∀ a, Does R (fun s => Q a s ∧ F s) (f a) Q') : Does R F (x >>= f) Q' := by
  have framed : Does R F x (fun a s => Q a s ∧ F s) :=
    (hx.frame stable).pre fun _ _ hF => ⟨trivial, hF⟩
  exact framed.bind hf

/-- First something that `F` survives and whose result does not matter. -/
theorem andThen (hx : Does R (fun _ => True) x (fun _ _ => True)) (stable : Stable R F)
    (hf : ∀ a, Does R F (f a) Q') : Does R F (x >>= f) Q' :=
  hx.bindKeeping stable fun a => (hf a).pre fun _ _ h => h.2

/-- First something that is asked nothing and says nothing. -/
theorem first (hx : Does R (fun _ => True) x (fun _ _ => True)) (hf : ∀ a, Does R (fun _ => True) (f a) Q') :
    Does R P (x >>= f) Q' :=
  (hx.bind hf).pre fun _ _ _ => trivial

end Does

/-- Nothing is asked of the state and nothing said of the result. -/
abbrev Plain (x : Asm α) : Prop := Does (Acts []) (fun _ => True) x (fun _ _ => True)

theorem Does.plain (h : Does (Acts []) (fun _ => True) x Q) : Does (Acts []) P x (fun _ _ => True) :=
  (h.pre fun _ _ _ => trivial).post fun _ _ _ => trivial

theorem Drawn.mono {s t : Assembler} {a : Address} (h : s.Drawn a) (grows : Grows s t) : t.Drawn a := by
  refine ⟨h.direct, fun origin => ?_⟩
  obtain ⟨k, name, v, mem, same⟩ := h.asked origin
  exact ⟨k, name, v, grows.mem_trace mem, same⟩

theorem Known.mono {s t : Assembler} {a : Address} (h : s.Known a) (grows : Grows s t) : t.Known a :=
  ⟨fun later unknown => grows.diagnostics (h.reported (grows.pass ▸ later) unknown), h.drawn.mono grows⟩

theorem stable_known [Walk R] (a : Address) : Stable R (fun s => s.Known a) :=
  fun _ _ _ walk h => h.mono (Walk.steps walk).grows

theorem known_inSpace (s : Assembler) (space : Space) (v : UInt16) : s.Known (.inSpace space v) :=
  ⟨fun _ unknown => (by simp [Address.isUndefined, Address.inSpace, Address.of] at unknown), rfl,
    fun external => (by cases external)⟩

/-- A value that is a number or counts from where a value of the source does. -/
theorem known_of_origin {s : Assembler} {a : Address} (direct : a.relative = false)
    (origin : a.origin = .absolute ∨ ∃ l, s.Known l ∧ a.origin = l.origin) : s.Known a := by
  obtain number | ⟨l, known, same⟩ := origin
  · refine ⟨fun _ unknown => ?_, direct, fun external => ?_⟩
    · rw [Address.isUndefined, number] at unknown
      cases unknown
    · rw [number] at external
      cases external
  · refine ⟨fun later unknown => known.reported later ?_, direct, fun external => known.drawn.asked ?_⟩
    · rwa [Address.isUndefined, ← same]
    · rwa [← same]

theorem known_constant (s : Assembler) (v : UInt16) : s.Known (.constant v) := known_of_origin rfl (.inl rfl)

theorem Known.aims {s : Assembler} {a : Address} (h : s.Known a) : s.Aims ids a :=
  ⟨fun later unknown => .inl (h.reported later unknown), h.drawn⟩

end Asm65.Assembler
