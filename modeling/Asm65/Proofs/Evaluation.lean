import Asm65.Proofs.Calculus
import Asm65.Proofs.Reading

/-!
# Expressions in a statement

Reading an expression in the assembler asks for names and does nothing else. A value that turns out unknown
has been reported, after the first pass, and one that refers to another module comes from a name that does. And
the value is the one that the same tokens have in the scope of
the module as it stands.
-/

namespace Asm65
set_option autoImplicit false

namespace Address

/-- What two addresses combine to is no distance, and counts from nothing or from where one of them does. -/
theorem origin_of_binary {op : Operator} {l r a : Address} (h : binary op l r = .ok a) :
    a.relative = false ∧ (a.origin = .absolute ∨ a.origin = l.origin ∨ a.origin = r.origin) := by
  unfold binary at h
  split at h
  · cases hv : constOp op l.value r.value with
    | error cause => rw [hv] at h; cases h
    | ok v => rw [hv] at h; cases h; exact ⟨rfl, .inl rfl⟩
  · split at h
    · cases h
    · split at h
      · rename_i unknown
        split at h <;> cases h
        exact ⟨rfl, .inr (.inl unknown.symm)⟩
      · rename_i unknown _
        split at h <;> cases h
        exact ⟨rfl, .inr (.inr unknown.symm)⟩
      · cases h; exact ⟨rfl, .inr (.inl rfl)⟩
      · cases h; exact ⟨rfl, .inr (.inl rfl)⟩
      · cases h; exact ⟨rfl, .inr (.inr rfl)⟩
      · split at h <;> cases h
        exact ⟨rfl, .inl rfl⟩
      · cases h

/-- An operation on one operand gives a number or an address that differs at most in its part. -/
structure Keeps (f : Address → Except Cause Address) : Prop where
  result {l a : Address} (h : f l = .ok a) : (∃ v, a = constant v) ∨ ∃ part, a = { l with part }

theorem keeps_onConstant (f : UInt16 → UInt16) (refused : Cause) : Keeps (onConstant f refused) := by
  refine ⟨fun {l a} h => ?_⟩
  unfold onConstant at h
  split at h <;> cases h
  · exact .inl ⟨_, rfl⟩
  · exact .inr ⟨_, rfl⟩

theorem keeps_select (part : Part) : Keeps (select part) := by
  refine ⟨fun {l a} h => ?_⟩
  unfold select at h
  split at h
  · cases h
  · split at h <;> cases h
    · exact .inl ⟨_, rfl⟩
    · exact .inr ⟨_, rfl⟩

end Address

namespace Assembler

variable {P : Assembler → Prop}

theorem acts_read (s : Assembler) (tokens : TokenStream) (lineEnded : Bool) :
    Acts [] s { s with tokens, lineEnded } := .single (.read _ _)

theorem does_nextToken : Plain Asm.nextToken := by
  refine .ofResult fun s _ _ => ?_
  unfold Asm.nextToken
  obtain ⟨e | t, tokens⟩ := s.tokens.next
  · exact acts_read s tokens s.lineEnded
  · exact ⟨acts_read s tokens _, trivial⟩

theorem acts_putBack (s : Assembler) (token : Token) : Acts [] s (Asm.putBack token s) := acts_read s _ _

theorem does_unread (token : Token) : Plain (Asm.unread token) :=
  .modify fun s _ _ => ⟨acts_putBack s token, trivial⟩

theorem does_intern (name : String) (pos : Position) :
    Does (Acts []) (fun _ => True) (Asm.intern name pos) (fun id s => s.identifiers.ids[name]? = some id) := by
  refine .ofRun fun s _ _ => ?_
  unfold Asm.intern
  split
  · rename_i id identifiers h
    exact .inr ⟨id, _, rfl, .single (.intern h), IdentifierTable.getElem?_of_intern h⟩
  · exact .inl ⟨_, rfl⟩

theorem eq_of_intern {name : String} {pos : Position} {s t : Assembler} {id : SymbolId}
    (run : Asm.intern name pos s = .ok id t) : ∃ identifiers, t = { s with identifiers } := by
  unfold Asm.intern at run
  split at run
  · cases run
    exact ⟨_, rfl⟩
  · cases run

/-- Asking for a name gives the address in the table. -/
theorem resolve_eq (name : String) (pos : Position) (s : Assembler) :
    Asm.resolve name pos s = match Asm.intern name pos s with
      | .ok id t => .ok (t.symbols.address id) (t.lookUp id name pos)
      | .error e t => .error e t := by
  show EStateM.bind (Asm.intern name pos) _ s = _
  unfold EStateM.bind
  cases Asm.intern name pos s with
  | error e t => rfl
  | ok id t =>
    show (if _ && decide ((t.log (.lookup id name _)).pass ≥ 2) then _ else _ : Asm Address) (t.log _) = _
    dsimp only [lookUp]
    split <;> rfl

/-- No address in the table is a distance. -/
theorem Sound.direct {s : Assembler} (sound : s.Sound) (id : SymbolId) : (s.symbols.address id).relative = false := by
  cases found : s.symbols.get? id with
  | none => rw [SymbolTable.address, found]; rfl
  | some sym => rw [SymbolTable.address_of_get? found]; exact sound.symbols.direct found

/-- After asking for a name, a value that is not known has been reported. -/
theorem known_lookUp {s : Assembler} (sound : s.Sound) (id : SymbolId) (name : String) (pos : Position) :
    (s.lookUp id name pos).Known (s.symbols.address id) := by
  refine ⟨fun later unknown => ?_, sound.direct id, fun origin => ?_⟩
  · rw [lookUp_eq] at later
    have asked : ((s.symbols.address id).isUndefined && decide (s.pass ≥ 2)) = true := by
      rw [unknown, Bool.true_and]
      exact decide_eq_true later
    dsimp only [lookUp]
    split
    · exact Diagnostics.isEmpty_record _ _
    · rename_i silent
      exact absurd asked silent
  · rw [lookUp_eq]
    exact ⟨id, name, _, List.mem_cons_self .., origin⟩

/-- A reader of an expression: it only asks for names, and its value is one of the source. -/
abbrev Evaluates (P : Assembler → Prop) (x : Asm Address) : Prop := Does (Acts []) P x (fun a s => s.Known a)

theorem evaluates_resolve (name : String) (pos : Position) : Evaluates P (Asm.resolve name pos) := by
  refine .ofResult fun s sound _ => ?_
  obtain ⟨ok, error⟩ := does_intern name pos s sound trivial
  rw [resolve_eq]
  cases found : Asm.intern name pos s with
  | error e t => exact error e t found
  | ok id t =>
    obtain ⟨acts, known⟩ := ok id t found
    exact ⟨acts.tail (.lookUp pos known), known_lookUp (sound.acts acts) id name pos⟩

theorem evaluates_lift {pos : Position} {x : Except Cause Address} (h : ∀ a, x = .ok a → ∀ s, P s → s.Known a) :
    Evaluates P (Expression.lift pos x) := by
  cases x with
  | ok a => exact .pure fun s _ hp => h a rfl s hp
  | error cause => exact .throw _

theorem Evaluates.locating {pos : Position} {x : Asm Address} (h : Evaluates P x) :
    Evaluates P (Expression.locating pos x) := by
  refine .ofResult fun s sound hp => ?_
  obtain ⟨ok, error⟩ := h s sound hp
  unfold Expression.locating
  cases hx : x s with
  | ok a t => exact ok a t hx
  | error e t => exact error e t hx

theorem does_refuse {β : Type} {Q : β → Assembler → Prop} (token : Token) (cause : Cause) :
    Does (Acts []) P (Expression.refuse token cause : Asm β) Q :=
  .first (does_unread token) fun _ => .throw _

theorem evaluates_missing : Evaluates P (Expression.missing : Asm Address) :=
  .first does_nextToken fun t => does_refuse t _

theorem does_expect (p : Punct) : Plain (Expression.expect p : Asm Unit) := by
  refine .first does_nextToken fun t => ?_
  split
  · exact .pure fun _ _ _ => trivial
  · exact does_refuse t _

/-- All four readers of one depth evaluate. -/
structure EvaluatesAt (n : Nat) : Prop where
  climb (least : Nat) : Evaluates (fun _ => True) (Expression.climb least n)
  climbFrom (left : Address) (least : Nat) : Evaluates (fun s => s.Known left) (Expression.climbFrom left least n)
  unary : Evaluates (fun _ => True) (Expression.unary n)
  primary : Evaluates (fun _ => True) (Expression.primary n)

namespace EvaluatesAt

variable {n : Nat}

/-- Climbing from a known operand evaluates, if the readers one step less deep do. -/
theorem climbFrom_succ (ih : EvaluatesAt n) (left : Address) (least : Nat) :
    Evaluates (fun s => s.Known left) (Expression.climbFrom left least (n + 1)) := by
  rw [Expression.climbFrom]
  refine does_nextToken.andThen (stable_known left) fun t => ?_
  have stop : Evaluates (fun s => s.Known left) (do Expression.unread t; return left) :=
    (does_unread t).andThen (stable_known left) fun _ => .pure fun _ _ h => h
  cases Expression.operator? t.lexeme with
  | none => exact stop
  | some found =>
    obtain ⟨op, precedence⟩ := found
    dsimp only
    split
    · refine (ih.climb _).bindKeeping (stable_known left) fun right => ?_
      refine Does.bind (evaluates_lift fun a h s known => ?_) fun v => ih.climbFrom v least
      obtain ⟨direct, number | l | r⟩ := Address.origin_of_binary h
      · exact known_of_origin direct (.inl number)
      · exact known_of_origin direct (.inr ⟨left, known.2, l⟩)
      · exact known_of_origin direct (.inr ⟨right, known.1, r⟩)
    · exact stop

theorem evaluates_apply (ih : EvaluatesAt n) (pos : Position) {f : Address → Except Cause Address}
    (keeps : Address.Keeps f) : Evaluates (fun _ => True) (do Expression.lift pos (f (← Expression.unary n))) := by
  refine ih.unary.bind fun l => evaluates_lift fun a h s known => ?_
  obtain ⟨v, rfl⟩ | ⟨part, rfl⟩ := keeps.result h
  · exact known_constant s v
  · exact known_of_origin known.drawn.direct (.inr ⟨l, known, rfl⟩)

theorem unary_succ (ih : EvaluatesAt n) : Evaluates (fun _ => True) (Expression.unary (n + 1)) := by
  rw [Expression.unary]
  refine .first does_nextToken fun t => ?_
  split
  · exact ih.evaluates_apply t.pos (Address.keeps_onConstant _ _)
  · exact ih.evaluates_apply t.pos (Address.keeps_onConstant _ _)
  · exact ih.evaluates_apply t.pos (Address.keeps_select .low)
  · exact ih.evaluates_apply t.pos (Address.keeps_select .high)
  · exact ih.unary.locating
  · exact .first (does_unread t) fun _ => ih.primary

/-- A primary evaluates, if the readers one step less deep do. -/
theorem primary_succ (ih : EvaluatesAt n) : Evaluates (fun _ => True) (Expression.primary (n + 1)) := by
  rw [Expression.primary]
  refine .first does_nextToken fun t => ?_
  have nested (close : Punct) : Evaluates (fun _ => True)
      (do let v ← Expression.climb 1 n; Expression.expect close; return v) :=
    (ih.climb 1).bind fun v => (does_expect close).andThen (stable_known v) fun _ => .pure fun _ _ h => h
  split
  · exact .pure fun s _ _ => known_constant s _
  · exact evaluates_resolve _ _
  · refine .getThen fun s sound _ => .pure fun t _ _ => ?_
    obtain ⟨space, v, same⟩ := sound.start
    show t.Known s.start
    rw [same]
    exact known_inSpace t space v
  · exact nested .rparen
  · exact nested .rbracket
  · exact does_refuse t _

end EvaluatesAt

theorem evaluatesAt (n : Nat) : EvaluatesAt n := by
  induction n with
  | zero =>
    refine ⟨fun least => ?_, fun left least => ?_, ?_, ?_⟩
    · rw [Expression.climb]; exact evaluates_missing
    · rw [Expression.climbFrom]; exact .pure fun _ _ h => h
    · rw [Expression.unary]; exact evaluates_missing
    · rw [Expression.primary]; exact evaluates_missing
  | succ n ih =>
    refine ⟨fun least => ?_, ih.climbFrom_succ, ih.unary_succ, ih.primary_succ⟩
    rw [Expression.climb]
    exact ih.unary.bind fun left => ih.climbFrom left least

theorem evaluates_expression : Evaluates P Asm.expression :=
  .getThen fun _ _ _ => ((evaluatesAt _).climb 1).fromState trivial

theorem evaluates_goOn (left : Address) (least : Nat) :
    Evaluates (fun s => s.Known left) (Expression.goOn left least) :=
  .getThen fun _ _ known => ((evaluatesAt _).climbFrom left least).fromState known

/-- The module so far gives a name the address that the table has under its number. -/
theorem Sound.valueOf_eq {s : Assembler} (sound : s.Sound) {name : String} {id : SymbolId}
    (known : s.identifiers.ids[name]? = some id) : s.valueOf name = s.symbols.address id := by
  unfold valueOf SymbolTable.address
  rw [Object.address?_eq rfl sound.symbols sound.numbered known]
  cases s.symbols.get? id <;> rfl

theorem valueOf_congr {s t : Assembler} (h : t.symbols = s.symbols) : t.valueOf = s.valueOf := by
  simp only [funext_iff, valueOf, Object.address?, toObject, h, implies_true]

/-- Nothing was written and no file loaded. -/
structure Stays (s t : Assembler) : Prop where
  start : t.start = s.start
  segments : t.segments = s.segments
  current : t.current = s.current
  files : t.files = s.files
  cpu : t.cpu = s.cpu
  options : t.options = s.options
  lastReachLog : t.lastReachLog = s.lastReachLog

theorem Stays.refl (s : Assembler) : Stays s s := ⟨rfl, rfl, rfl, rfl, rfl, rfl, rfl⟩

theorem Stays.trans {s t u : Assembler} (h : Stays s t) (k : Stays t u) : Stays s u where
  start := k.start.trans h.start
  segments := k.segments.trans h.segments
  current := k.current.trans h.current
  files := k.files.trans h.files
  cpu := k.cpu.trans h.cpu
  options := k.options.trans h.options
  lastReachLog := k.lastReachLog.trans h.lastReachLog

theorem Stays.here {s t : Assembler} (stays : Stays s t) : t.here = s.here := by
  simp only [Assembler.here, segment, stays.segments, stays.current]

/-- A state while an expression is read that started in `s`, and the scope that reads the same tokens. -/
structure Replays (s t : Assembler) (scope : Scope Address) : Prop where
  sound : t.Sound
  stays : Stays s t
  symbols : t.symbols = s.symbols
  scope : scope = ⟨t.tokens, s.valueOf, s.start⟩

/-- Reading in the assembler is reading in the scope of the module so far. -/
def simulation (s : Assembler) : Expression.Simulation Assembler (Scope Address) Address Address where
  state := s.Replays
  value := Eq
  next := by
    rintro t t' scope token ⟨sound, stays, symbols, rfl⟩ h
    change Asm.nextToken t = _ at h
    unfold Asm.nextToken at h
    split at h
    · rename_i token' tokens found
      cases h
      refine ⟨⟨tokens, s.valueOf, s.start⟩, ?_, ?_, stays.trans ⟨rfl, rfl, rfl, rfl, rfl, rfl, rfl⟩, symbols, rfl⟩
      · show Scope.nextToken _ = _
        simp only [Scope.nextToken, found]
      · exact sound.acts (acts_read t _ _)
    · cases h
  unread := by
    rintro t scope token ⟨sound, stays, symbols, rfl⟩
    exact ⟨sound.acts (acts_putBack t token), stays.trans ⟨rfl, rfl, rfl, rfl, rfl, rfl, rfl⟩, symbols, rfl⟩
  resolve := by
    rintro t t' scope name pos a ⟨sound, stays, symbols, rfl⟩ h
    change Asm.resolve name pos t = _ at h
    rw [resolve_eq] at h
    unfold Asm.intern at h
    split at h
    · rename_i id u found
      split at found
      · rename_i id' identifiers interned
        cases found
        cases h
        have known := IdentifierTable.getElem?_of_intern interned
        have asked : Sound { t with identifiers } := sound.act (.intern interned : Action [] t _)
        refine ⟨_, _, rfl, ⟨asked.act (.lookUp pos known : Action [] _ _), ?_, ?_, ?_⟩, ?_⟩
        · rw [lookUp_eq]
          exact stays.trans ⟨rfl, rfl, rfl, rfl, rfl, rfl, rfl⟩
        · rw [lookUp_eq]
          exact symbols
        · rw [lookUp_eq]
        · rw [← asked.valueOf_eq known]
          exact congrFun (valueOf_congr symbols) name
      · cases found
    · cases h
  location := by
    rintro t scope ⟨-, stays, -, rfl⟩
    exact stays.start
  budget := by
    rintro t scope ⟨-, -, -, rfl⟩
    rfl
  constant _ := rfl
  binary := by rintro op l r a _ _ rfl rfl h; exact ⟨a, h, rfl⟩
  negate := by rintro l a _ rfl h; exact ⟨a, h, rfl⟩
  complement := by rintro l a _ rfl h; exact ⟨a, h, rfl⟩
  select := by rintro part l a _ rfl h; exact ⟨a, h, rfl⟩

/-- What an expression evaluates to is what its tokens evaluate to in the scope of the module so far. -/
theorem replays_expression {s t : Assembler} (sound : s.Sound) {a : Address} (run : Asm.expression s = .ok a t) :
    ∃ rest, Expression.read (⟨s.tokens, s.valueOf, s.start⟩ : Scope Address) = .ok a rest ∧ s.Replays t rest := by
  obtain ⟨b, rest, reads, replays, rfl⟩ :=
    (simulation s).read s t ⟨s.tokens, s.valueOf, s.start⟩ a ⟨sound, .refl s, rfl, rfl⟩ run
  exact ⟨rest, reads, replays⟩

end Assembler

end Asm65
