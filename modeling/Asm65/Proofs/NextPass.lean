import Asm65.Proofs.Pass
import Asm65.Proofs.ReadingParts

/-!
# The next pass, step by step

Take a pass that ends in the state `f`, has no errors and moves nothing. What the pass after it does can be read off
from what this one does: in the place of a state `s` of this pass, the next one has the names and symbols that this pass
ends with, and the symbols defined so far bear its date. `ahead f s` is this state.

That a step gives the same there takes that what it asks for is what the pass ends with. This is known from behind: a
state `s` that leads to `f` has the addresses of `f`, because the steps in between would have noticed another one. So
`Echoes` is proved from the end of a computation to its start.
-/

namespace Asm65
set_option autoImplicit false

namespace SymbolTable

variable {last now : SymbolTable} {pass : Nat} {id : SymbolId} {name : String} {sym : Symbol}

/-- The table in the next pass, where a pass that ends with `last` has `now`: what is defined so far has the next date. -/
def renewed (last now : SymbolTable) (pass : Nat) : SymbolTable :=
  ⟨last.entries.map fun id sym => if (now.get? id).any (·.pass == pass) then { sym with pass := pass + 1 } else sym⟩

theorem get?_renewed (last now : SymbolTable) (pass : Nat) (id : SymbolId) :
    (last.renewed now pass).get? id = (last.get? id).map fun sym =>
      if (now.get? id).any (·.pass == pass) then { sym with pass := pass + 1 } else sym :=
  Std.ExtTreeMap.getElem?_map

theorem ext_get? {t u : SymbolTable} (h : ∀ id, t.get? id = u.get? id) : t = u := by
  obtain ⟨t⟩ := t
  obtain ⟨u⟩ := u
  exact congrArg mk (Std.ExtTreeMap.ext_getElem? h)

theorem map_address_renewed (last now : SymbolTable) (pass : Nat) (id : SymbolId) :
    ((last.renewed now pass).get? id).map (·.address) = (last.get? id).map (·.address) := by
  rw [get?_renewed]
  cases last.get? id with
  | none => rfl
  | some sym =>
    dsimp only [Option.map_some]
    split <;> rfl

theorem address_renewed (last now : SymbolTable) (pass : Nat) (id : SymbolId) :
    (last.renewed now pass).address id = last.address id := by
  have same := map_address_renewed last now pass id
  unfold address
  cases entry : last.get? id with
  | none =>
    rw [entry, Option.map_none, Option.map_eq_none_iff] at same
    rw [same]
  | some sym =>
    rw [entry, Option.map_some] at same
    obtain ⟨new, found, address⟩ := Option.map_eq_some_iff.1 same
    rw [found]
    exact address

/-- What the pass ends with depends on an entry only through whether it is defined. -/
theorem get?_renewed_congr {now' : SymbolTable} (same : now'.get? id = now.get? id) :
    (last.renewed now' pass).get? id = (last.renewed now pass).get? id := by
  rw [get?_renewed, get?_renewed, same]

/-- A definition that gives what the pass ends with is repeated. -/
theorem define_renewed {a : Address} (dated : last.Dated pass) (found : last.get? id = some sym) (same : sym.address = a)
    (new : (now.define id name a pass).1 ≠ .duplicate) :
    (last.renewed now pass).define id name a (pass + 1) =
      (.unchanged, last.renewed (now.define id name a pass).2 pass) := by
  have undefined : (now.get? id).any (·.pass == pass) = false := by
    rw [ne_eq, define_eq_duplicate_iff] at new
    cases entry : now.get? id with
    | none => rfl
    | some old =>
      rw [Option.any_some, beq_eq_false_iff_ne]
      intro again
      exact new ⟨old, entry, again⟩
  have entry : (last.renewed now pass).get? id = some sym := by
    rw [get?_renewed, undefined, found]
    rfl
  have earlier : sym.pass ≠ pass + 1 := by
    have bound := dated id sym found
    omega
  unfold define
  rw [entry]
  dsimp only
  rw [if_neg earlier, if_pos same]
  congr 1
  apply ext_get?
  intro k
  change _ = (last.renewed (now.define id name a pass).2 pass).get? k
  by_cases here : id = k
  · subst here
    have defined : ((now.define id name a pass).2.get? id).any (·.pass == pass) = true := by
      rw [now.get?_define_self id name a pass new, Option.any_some, beq_self_eq_true]
    rw [get?_renewed, defined, found, get?, Std.ExtTreeMap.getElem?_insert_self, ← same]
    rfl
  · rw [get?_renewed_congr (now.get?_define_of_ne name a pass here), get?, Std.ExtTreeMap.getElem?_insert,
      if_neg (by simpa using here)]
    rfl

/-- A declaration that the pass ends with is repeated. -/
theorem declarePublic_renewed (found : last.get? id = some sym) (shown : sym.isPublic = true) (later : 0 < pass) :
    (last.renewed now pass).declarePublic id name = last.renewed (now.declarePublic id name) pass := by
  apply ext_get?
  intro k
  by_cases here : id = k
  · subst here
    have same : ((now.declarePublic id name).get? id).any (·.pass == pass) = (now.get? id).any (·.pass == pass) := by
      rw [now.get?_declarePublic_self]
      cases now.get? id with
      | none =>
        rw [Option.any_some, Option.any_none, beq_eq_false_iff_ne]
        exact Nat.ne_of_lt later
      | some old => rfl
    rw [get?_declarePublic_self, get?_renewed, get?_renewed, same, found]
    obtain ⟨_, _, _, _, _⟩ := sym
    cases shown
    dsimp only [Option.map_some, Option.getD_some]
    split <;> rfl
  · rw [get?_renewed_congr (now.get?_declarePublic_of_ne id name here), get?_declarePublic_of_ne _ _ _ here]

/-- A label that the pass ends without is dropped again. -/
theorem erase_renewed (gone : last.get? id = none) :
    (last.renewed now pass).erase id = last.renewed (now.erase id) pass := by
  apply ext_get?
  intro k
  by_cases here : id = k
  · subst here
    rw [get?_erase_self, get?_renewed, gone]
    rfl
  · rw [get?_renewed_congr (now.get?_erase_of_ne here), get?_erase_of_ne _ here]

end SymbolTable

/-- Tables that lie within each other are the same. -/
theorem SourceTable.Within.antisymm {t u : SourceTable} (h : t.Within u) (k : u.Within t) : t = u := by
  obtain ⟨more, same⟩ := h
  obtain ⟨more', same'⟩ := k
  have sizes := congrArg Array.size same
  have sizes' := congrArg Array.size same'
  rw [Array.size_append] at sizes sizes'
  have none : more = #[] := Array.eq_empty_of_size_eq_zero (by omega)
  obtain ⟨files⟩ := t
  obtain ⟨files'⟩ := u
  subst none
  rw [Array.append_empty] at same
  exact congrArg mk same.symm

namespace Assembler

/-- The state of the next pass in the place of `s`, in a pass that ends with `f`. -/
def ahead (f s : Assembler) : Assembler :=
  { s with
    pass := s.pass + 1
    identifiers := f.identifiers
    symbols := f.symbols.renewed s.symbols s.pass
    notes := .pass (f.pass + 1) :: f.notes }

/-- A pass that ends with `f` has no errors and is not the first. -/
structure Done (f : Assembler) : Prop where
  sound : f.Sound
  later : 2 ≤ f.pass
  clean : f.diagnostics.isEmpty = true
  dated : f.symbols.Dated f.pass

/-- From `s` the pass leads to `f` without errors, moving nothing. Of the labels in `E`, which it may drop on the way,
nothing is said. -/
structure Leads (f : Assembler) (E : SymbolId → Prop) (s : Assembler) : Prop where
  cpu : s.cpu = f.cpu
  options : s.options = f.options
  disk : s.disk = f.disk
  pass : s.pass = f.pass
  diagnostics : s.diagnostics = f.diagnostics
  fatal : s.fatal = f.fatal
  moved : s.moved = false
  files : s.files.Within f.files
  identifiers {name : String} {id : SymbolId} (h : s.identifiers.ids[name]? = some id) :
    f.identifiers.ids[name]? = some id
  labels {k : SymbolId} (h : E k) : autoLabelBase ≤ k.toNat
  address {k : SymbolId} (safe : ¬ E k) : s.symbols.address k = f.symbols.address k
  entry {k : SymbolId} {sym : Symbol} (safe : ¬ E k) (h : s.symbols.get? k = some sym) :
    ∃ last, f.symbols.get? k = some last ∧ (sym.isPublic = true → last.isPublic = true)
  absent {k : SymbolId} (safe : ¬ E k) (high : autoLabelBase ≤ k.toNat) (h : s.symbols.get? k = none) :
    f.symbols.get? k = none

/-- The same blocks are open, and no label has been handed out. -/
structure SameBlocks (s t : Assembler) : Prop where
  blocks : t.blocks = s.blocks
  nextLabel : t.nextLabel = s.nextLabel

theorem SameBlocks.refl (s : Assembler) : SameBlocks s s := ⟨rfl, rfl⟩

theorem SameBlocks.trans {s t u : Assembler} (h : SameBlocks s t) (k : SameBlocks t u) : SameBlocks s u :=
  ⟨k.blocks.trans h.blocks, k.nextLabel.trans h.nextLabel⟩

variable {f s t u : Assembler} {E : SymbolId → Prop} {α β : Type} {x : Asm α} {g : α → Asm β}

theorem Leads.mono {E' : SymbolId → Prop} (h : Leads f E s) (sub : ∀ k, E k → E' k)
    (labels : ∀ {k}, E' k → autoLabelBase ≤ k.toNat) : Leads f E' s :=
  { h with
    labels
    address := fun safe => h.address fun mem => safe (sub _ mem)
    entry := fun safe => h.entry fun mem => safe (sub _ mem)
    absent := fun safe => h.absent fun mem => safe (sub _ mem) }

/-- Nothing has been reported. -/
theorem Leads.isEmpty (h : Leads f E s) (done : f.Done) : s.diagnostics.isEmpty = true := h.diagnostics ▸ done.clean

theorem Leads.not_recorded {e : Error} {p : Prop} (h : Leads f E (s.record e)) (done : f.Done) : p := by
  have clean := h.isEmpty done
  rw [isEmpty_diagnostics_record] at clean
  cases clean

/-- A name is no label. -/
theorem Leads.safe (h : Leads f E s) (done : f.Done) {name : String} {id : SymbolId}
    (known : s.identifiers.ids[name]? = some id) : ¬ E id := by
  intro label
  have low := done.sound.numbered.toNat_lt (h.identifiers known)
  have high := h.labels label
  omega

/-- What `x` did from `s` to `t`, it does again in the next pass. -/
structure Echo (f : Assembler) (E : SymbolId → Prop) (s : Assembler) (x : Asm α) (a : α) (t : Assembler) : Prop where
  leads : Leads f E s
  again (same : s.files = f.files) : x (ahead f s) = .ok a (ahead f t) ∧ t.files = f.files

/-- Whatever `x` does from `s` in the pass, it does again in the next one, and it leaves blocks alone. -/
def EchoesAt (f s : Assembler) (x : Asm α) : Prop :=
  ∀ ⦃a t⦄, x s = .ok a t → SameBlocks s t ∧ ∀ ⦃E⦄, Leads f E t → Echo f E s x a t

/-- From any state. -/
def Echoes (f : Assembler) (x : Asm α) : Prop := ∀ s, EchoesAt f s x

theorem bind_eq {a : α} (run : x s = .ok a t) : (x >>= g) s = g a t := by
  show EStateM.bind x g s = _
  rw [EStateM.bind, run]

theorem Echo.bind {a : α} {b : β} (rest : Echo f E u (g a) b t) (first : Leads f E u → Echo f E s x a u) :
    Echo f E s (x >>= g) b t := by
  have first := first rest.leads
  refine ⟨first.leads, fun same => ?_⟩
  obtain ⟨run, same⟩ := first.again same
  rw [bind_eq run]
  exact rest.again same

theorem EchoesAt.bind (hx : EchoesAt f s x) (hg : ∀ a u, x s = .ok a u → EchoesAt f u (g a)) :
    EchoesAt f s (x >>= g) := by
  intro b t run
  obtain ⟨a, u, first, rest⟩ := exists_of_bind_eq_ok run
  obtain ⟨still, echo⟩ := hx first
  obtain ⟨still', echo'⟩ := hg a u first rest
  exact ⟨still.trans still', fun E leads => (echo' leads).bind fun leads => echo leads⟩

namespace Echoes

theorem pure (a : α) : Echoes f (Pure.pure a) := by
  intro s b t run
  cases run
  exact ⟨.refl s, fun E leads => ⟨leads, fun same => ⟨rfl, same⟩⟩⟩

theorem throw (e : Error) : Echoes f (MonadExcept.throw e : Asm α) := by
  intro s a t run
  cases run

theorem fail (cause : Cause) (pos : Position) : Echoes f (Asm.fail cause pos : Asm α) := throw _

/-- Nothing follows a failure. -/
theorem failThen (cause : Cause) (pos : Position) : Echoes f (Asm.fail cause pos >>= g) := by
  intro s a t run
  cases run

theorem bind (hx : Echoes f x) (hg : ∀ a, Echoes f (g a)) : Echoes f (x >>= g) :=
  fun s => (hx s).bind fun a u _ => hg a u

/-- A computation that first looks at what both passes have. -/
theorem get {g : Assembler → Asm β} (same : ∀ s, g (ahead f s) = g s) (hg : ∀ s, Echoes f (g s)) :
    Echoes f (MonadState.get >>= g) := by
  intro s b t run
  have run : g s s = .ok b t := run
  obtain ⟨still, echo⟩ := hg s s run
  refine ⟨still, fun E leads => ⟨(echo leads).leads, fun files => ?_⟩⟩
  show g (ahead f s) (ahead f s) = _ ∧ _
  rw [same]
  exact (echo leads).again files

end Echoes

/-- A change of the state that leaves files, blocks and symbols alone and does not depend on the pass. -/
structure Harmless (f : Assembler) (g : Assembler → Assembler) : Prop where
  still (s : Assembler) : SameBlocks s (g s)
  files (s : Assembler) : (g s).files = s.files
  leads {E : SymbolId → Prop} {s : Assembler} (h : Leads f E (g s)) : Leads f E s
  ahead {E : SymbolId → Prop} {s : Assembler} (h : Leads f E (g s)) : g (ahead f s) = Assembler.ahead f (g s)

theorem Harmless.echoes {g : Assembler → Assembler} (h : Harmless f g) : Echoes f (modify g) := by
  intro s a t run
  cases run
  refine ⟨h.still s, fun E leads => ⟨h.leads leads, fun same => ⟨?_, (h.files s).trans same⟩⟩⟩
  show EStateM.Result.ok () (g (Assembler.ahead f s)) = _
  rw [h.ahead leads]

theorem Harmless.comp {g h : Assembler → Assembler} (hg : Harmless f g) (hh : Harmless f h) :
    Harmless f fun s => h (g s) where
  still s := (hg.still s).trans (hh.still (g s))
  files s := (hh.files (g s)).trans (hg.files s)
  leads leads := hg.leads (hh.leads leads)
  ahead leads := by rw [hg.ahead (hh.leads leads), hh.ahead leads]

theorem harmless_log {e : Assembler → Event} (same : ∀ s, e (ahead f s) = e s) : Harmless f fun s => s.log (e s) where
  still _ := ⟨rfl, rfl⟩
  files _ := rfl
  leads h := { h with }
  ahead {E s} h := by rw [same]; rfl

theorem harmless_emit (b : UInt8) : Harmless f (·.emit b) :=
  ⟨fun _ => ⟨rfl, rfl⟩, fun _ => rfl, fun h => { h with }, fun _ => rfl⟩

theorem harmless_addUse (v : Address) : Harmless f (·.addUse v) :=
  ⟨fun _ => ⟨rfl, rfl⟩, fun _ => rfl, fun h => { h with }, fun _ => rfl⟩

theorem harmless_emitWord (a : Address) : Harmless f (·.emitWord a) := by
  have start : Harmless f fun s => s.log (.operand s.here a) := harmless_log fun _ => rfl
  have bytes (v : UInt16) : Harmless f fun s => (s.emit v.toUInt8).emit (v >>> 8).toUInt8 :=
    (harmless_emit _).comp (harmless_emit _)
  unfold emitWord
  cases origin : a.origin with
  | absolute => exact start.comp (bytes a.value)
  | undefined => exact start.comp (bytes 0)
  | space space => exact (start.comp (harmless_addUse a)).comp (bytes _)
  | external id => exact (start.comp (harmless_addUse a)).comp (bytes _)

/-! ### Reading -/

theorem echoes_nextToken : Echoes f Asm.nextToken := by
  intro s a t run
  unfold Asm.nextToken at run
  cases found : s.tokens.next with
  | mk outcome tokens =>
    rw [found] at run
    cases outcome with
    | error e => cases run
    | ok token =>
      cases run
      refine ⟨⟨rfl, rfl⟩, fun E leads => ⟨{ leads with }, fun same => ⟨?_, same⟩⟩⟩
      have found : (ahead f s).tokens.next = (.ok a, tokens) := found
      rw [Asm.nextToken, found]
      rfl

theorem echoes_unread (token : Token) : Echoes f (Asm.unread token) :=
  Harmless.echoes ⟨fun _ => ⟨rfl, rfl⟩, fun _ => rfl, fun h => { h with }, fun _ => rfl⟩

theorem exists_of_intern {name : String} {pos : Position} {id : SymbolId} (run : Asm.intern name pos s = .ok id t) :
    ∃ identifiers, s.identifiers.intern name = .ok (id, identifiers) ∧ t = { s with identifiers } := by
  unfold Asm.intern at run
  cases found : s.identifiers.intern name with
  | error cause => rw [found] at run; cases run
  | ok numbered =>
    rw [found] at run
    cases run
    exact ⟨numbered.2, rfl, rfl⟩

/-- The name has the number that it ends with. -/
theorem echoes_intern (name : String) (pos : Position) : Echoes f (Asm.intern name pos) := by
  intro s id t run
  obtain ⟨identifiers, found, rfl⟩ := exists_of_intern run
  refine ⟨⟨rfl, rfl⟩, fun E leads => ⟨{ leads with identifiers := ?_ }, fun same => ⟨?_, same⟩⟩⟩
  · intro other k given
    exact leads.identifiers (IdentifierTable.getElem?_intern_of_some found given)
  · have numbered : (ahead f s).identifiers.ids[name]? = some id :=
      leads.identifiers (IdentifierTable.getElem?_of_intern found)
    rw [Asm.intern, IdentifierTable.intern, numbered]
    rfl

section

variable (done : f.Done)

include done

/-- A name without a value would have been reported. -/
theorem Leads.lookUp {id : SymbolId} {name : String} {pos : Position} (h : Leads f E (s.lookUp id name pos)) :
    (s.symbols.address id).isUndefined = false
      ∧ s.lookUp id name pos = s.log (.lookup id name (s.symbols.address id)) := by
  have later : 2 ≤ s.pass := by
    have same := h.pass
    rw [lookUp_eq] at same
    exact same ▸ done.later
  unfold Assembler.lookUp at h ⊢
  dsimp only at h ⊢
  cases known : (s.symbols.address id).isUndefined with
  | false => exact ⟨rfl, rfl⟩
  | true =>
    have now : (s.log (.lookup id name (s.symbols.address id))).pass ≥ 2 := later
    rw [known, Bool.true_and, if_pos (decide_eq_true now)] at h
    exact h.not_recorded done

/-- A name that is looked up has the same value in the next pass. One without a value would have been reported. -/
theorem echoes_resolve (name : String) (pos : Position) : Echoes f (Asm.resolve name pos) := by
  intro s a t run
  rw [resolve_eq] at run
  cases found : Asm.intern name pos s with
  | error e u => rw [found] at run; cases run
  | ok id u =>
    rw [found] at run
    cases run
    obtain ⟨still, echo⟩ := echoes_intern (f := f) name pos s found
    refine ⟨?_, fun E leads => ?_⟩
    · rw [lookUp_eq]
      exact ⟨still.blocks, still.nextLabel⟩
    · obtain ⟨known, same⟩ := leads.lookUp done
      rw [same] at leads ⊢
      have leads : Leads f E u := { leads with }
      obtain ⟨identifiers, numbered, rfl⟩ := exists_of_intern found
      have safe : ¬ E id := leads.safe done (IdentifierTable.getElem?_of_intern numbered)
      have address : (ahead f { s with identifiers }).symbols.address id = s.symbols.address id :=
        (SymbolTable.address_renewed ..).trans (leads.address safe).symm
      refine ⟨(echo leads).leads, fun files => ⟨?_, files⟩⟩
      obtain ⟨again, -⟩ := (echo leads).again files
      rw [resolve_eq, again]
      dsimp only
      rw [Assembler.lookUp, address, known]
      rfl

/-- Whatever is read is read again. -/
theorem closed_echoes :
    Expression.Closed (σ := Assembler) (α := Address) (fun x => Echoes f x) (fun _ x => Echoes f x) (fun _ => True) where
  pure := .pure
  bind := .bind
  throw _ _ _ := .throw _
  next hg := .bind echoes_nextToken fun t => hg t trivial
  after _ hx := hx
  fail _ _ _ _ := .throw _
  unread t _ hg := .bind (echoes_unread t) fun _ => hg
  resolve name pos _ := echoes_resolve done name pos
  location := .get (fun _ => rfl) fun _ => .pure _
  locating {pos} _ {x} hx := by
    intro s a t run
    unfold Expression.locating at run
    cases found : x s with
    | error e u => rw [found] at run; cases run
    | ok b u =>
      rw [found] at run
      cases run
      obtain ⟨still, echo⟩ := hx s found
      refine ⟨still, fun E leads => ⟨(echo leads).leads, fun files => ?_⟩⟩
      obtain ⟨again, files⟩ := (echo leads).again files
      rw [Expression.locating, again]
      exact ⟨rfl, files⟩
  budget hg := .get (fun _ => rfl) fun _ => hg _

theorem echoes_expression : Echoes f Asm.expression := (closed_echoes done).read

theorem echoes_operand : Echoes f Asm.operand := (closed_echoes done).operand

/-! ### Symbols -/

/-- A definition that moves nothing is made again. -/
theorem echo_defineId {id : SymbolId} {name : String} {a : Address} {pos : Position}
    (run : Asm.defineId id name a pos s = .ok () t) (leads : Leads f E t) (safe : ¬ E id) :
    Echo f E s (Asm.defineId id name a pos) () t := by
  obtain ⟨-, refused⟩ | ⟨new, ran⟩ := defineId_eq id name a pos s
  · rw [refused] at run; cases run
  rw [ran] at run
  cases run
  have later : 2 ≤ s.pass := by
    have same : s.pass = f.pass := leads.pass
    exact same ▸ done.later
  -- another address than before would have been a move
  have unchanged := define_eq_unchanged new leads.moved
  obtain ⟨sym, found, same⟩ := s.symbols.exists_of_define_eq_unchanged id name a s.pass later unchanged
  have defined := s.symbols.get?_define_self id name a s.pass new
  rw [found, Option.getD_some] at defined
  refine ⟨{ leads with moved := ?_, address := ?_, entry := ?_, absent := ?_ }, fun files => ⟨?_, files⟩⟩
  · exact (Grows.assign new).moved_eq_false leads.moved
  · intro k safe
    exact (address_assign later new leads.moved k).symm.trans (leads.address safe)
  · intro k old safe entry
    by_cases here : id = k
    · subst here
      cases found.symm.trans entry
      obtain ⟨last, ends, shown⟩ := leads.entry safe defined
      exact ⟨last, ends, shown⟩
    · exact leads.entry safe ((s.symbols.get?_define_of_ne name a s.pass here).trans entry)
  · intro k safe high entry
    by_cases here : id = k
    · subst here
      cases found.symm.trans entry
    · exact leads.absent safe high ((s.symbols.get?_define_of_ne name a s.pass here).trans entry)
  · obtain ⟨last, ends, -⟩ := leads.entry safe defined
    have address : last.address = a := by
      rw [← SymbolTable.address_of_get? ends, ← leads.address safe]
      exact s.symbols.address_define id name a s.pass new
    have dated : f.symbols.Dated s.pass := by
      have same : s.pass = f.pass := leads.pass
      exact same ▸ done.dated
    have again : (ahead f s).symbols.define id name a (ahead f s).pass = _ :=
      SymbolTable.define_renewed dated ends address new
    rw [Asm.defineId, again]
    unfold assign
    rw [unchanged]
    rfl

theorem echoesAt_defineId {id : SymbolId} {name : String} (a : Address) (pos : Position)
    (known : s.identifiers.ids[name]? = some id) : EchoesAt f s (Asm.defineId id name a pos) := by
  intro b t run
  obtain ⟨-, refused⟩ | ⟨new, ran⟩ := defineId_eq id name a pos s
  · rw [refused] at run; cases run
  rw [ran] at run
  cases run
  refine ⟨⟨rfl, rfl⟩, fun E leads => ?_⟩
  have safe : ¬ E id := leads.safe done known
  exact echo_defineId done ran leads safe

/-- A declaration is made again. -/
theorem echoesAt_declarePublic {id : SymbolId} {name : String} (known : s.identifiers.ids[name]? = some id) :
    EchoesAt f s (modify fun s => { s with symbols := s.symbols.declarePublic id name }) := by
  intro a t run
  cases run
  refine ⟨⟨rfl, rfl⟩, fun E leads => ?_⟩
  have safe : ¬ E id := leads.safe done known
  have later : 0 < s.pass := by
    have same : s.pass = f.pass := leads.pass
    have later := done.later
    omega
  have declared := s.symbols.get?_declarePublic_self id name
  obtain ⟨last, ends, shown⟩ := leads.entry safe declared
  refine ⟨{ leads with address := ?_, entry := ?_, absent := ?_ }, fun files => ⟨?_, files⟩⟩
  · intro k safe
    exact (s.symbols.address_declarePublic id name k).symm.trans (leads.address safe)
  · intro k sym safe entry
    by_cases here : id = k
    · subst here
      exact ⟨last, ends, fun _ => shown rfl⟩
    · exact leads.entry safe ((s.symbols.get?_declarePublic_of_ne id name here).trans entry)
  · intro k safe high entry
    by_cases here : id = k
    · subst here
      have low := done.sound.numbered.toNat_lt (leads.identifiers known)
      omega
    · exact leads.absent safe high ((s.symbols.get?_declarePublic_of_ne id name here).trans entry)
  · have again : (ahead f s).symbols.declarePublic id name = _ :=
      SymbolTable.declarePublic_renewed ends (shown rfl) later
    show EStateM.Result.ok () { ahead f s with symbols := (ahead f s).symbols.declarePublic id name } = _
    rw [again]
    rfl

omit done in
/-- What follows may use that the name has its number. -/
theorem Echoes.intern {name : String} {pos : Position} {g : SymbolId → Asm β}
    (h : ∀ (id : SymbolId) (s : Assembler), s.identifiers.ids[name]? = some id → EchoesAt f s (g id)) :
    Echoes f (Asm.intern name pos >>= g) := by
  refine fun s => (echoes_intern name pos s).bind fun id u run => h id u ?_
  obtain ⟨identifiers, found, rfl⟩ := exists_of_intern run
  exact IdentifierTable.getElem?_of_intern found

theorem echoes_defineName (name : String) (a : Address) (pos : Position) : Echoes f (Asm.defineName name a pos) :=
  .intern fun _ _ known => echoesAt_defineId done a pos known

/-! ### Writing -/

theorem harmless_record (e : Error) : Harmless f (·.record e) where
  still _ := ⟨rfl, rfl⟩
  files _ := rfl
  leads h := h.not_recorded done
  ahead h := h.not_recorded done

/-- Writing a byte operand does not depend on the pass, whatever kind of address it is. -/
theorem harmless_emitByteOperand (pos : Position) (a : Address) : Harmless f (·.emitByteOperand pos a) := by
  have start : Harmless f fun s => s.log (.operand s.here a) := harmless_log fun _ => rfl
  have used (v : Address) (b : UInt8) := (start.comp (harmless_addUse v)).comp (harmless_emit b)
  have refused (e : Error) (b : UInt8) := (start.comp (harmless_record done e)).comp (harmless_emit b)
  unfold emitByteOperand
  cases origin : a.origin with
  | absolute =>
    dsimp only
    cases fits : a.fitsByte with
    | true => exact start.comp (harmless_emit _)
    | false => exact refused _ _
  | undefined => exact start.comp (harmless_emit 0)
  | space space =>
    cases part : a.part with
    | word =>
      dsimp only
      split
      · exact used _ _
      · exact refused _ _
    | low | high => exact used _ _
  | external id =>
    cases part : a.part with
    | word =>
      dsimp only
      split
      · exact used _ _
      · exact refused _ _
    | low | high => exact used _ _

theorem harmless_emitPointer (pos : Position) (a : Address) : Harmless f (·.emitPointer pos a) := by
  have start : Harmless f fun s => s.log (.operand s.here a) := harmless_log fun _ => rfl
  unfold emitPointer
  split
  · exact (start.comp (harmless_record done _)).comp (harmless_emitWord _)
  · exact harmless_emitWord a

end

end Assembler

end Asm65
