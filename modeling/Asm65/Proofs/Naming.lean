import Asm65.Proofs.Trace
import Mathlib.Data.List.Nodup

/-!
# The names that a pass gives

A label or a definition gives a name its value here; a declaration says that it has its value elsewhere. In one
pass a name is given once. Every external value refers to a name that was declared to have its value elsewhere, and
as long as no pass gives that name a value here, its own address is the external one.
-/

namespace Asm65
set_option autoImplicit false

/-- A name with a value of this module, or with its value in another one. -/
inductive Naming where
  | here (name : String)
  | elsewhere (name : String)
  deriving DecidableEq

namespace Naming

def name : Naming → String
  | .here name | .elsewhere name => name

end Naming

/-- The name that an event gives. -/
def Event.naming? : Event → Option Naming
  | .placed name .. | .equated name .. => some (.here name)
  | .declared name false => some (.elsewhere name)
  | _ => none

/-- Whether the value that an event gives is one of another module. -/
def Event.isForeign : Event → Bool
  | .declared _ isPublic => !isPublic
  | .equated _ _ _ _ value => value.isExternal
  | _ => false

/-- Whether a name was asked for. -/
def Event.isLookup : Event → Bool
  | .lookup .. => true
  | _ => false

namespace Assembler

variable {s t : Assembler} {ids : List SymbolId}

/-- The names given in this pass, latest first. -/
def given (s : Assembler) : List Naming := s.trace.filterMap Event.naming?

theorem given_suffix (grows : Grows s t) : s.given <:+ t.given := grows.trace.filterMap _

/-- A step that gives no name. -/
structure Nameless (s t : Assembler) : Prop where
  trace : t.trace = s.trace ∨ ∃ e, e.naming? = none ∧ t.trace = e :: s.trace
  address {id : SymbolId} (low : id.toNat < autoLabelBase) : t.symbols.address id = s.symbols.address id
  pass {id : SymbolId} {sym : Symbol} (low : id.toNat < autoLabelBase) (h : s.symbols.get? id = some sym) :
    ∃ after, t.symbols.get? id = some after ∧ after.pass = sym.pass
  entry {id : SymbolId} {sym : Symbol} (low : id.toNat < autoLabelBase) (h : t.symbols.get? id = some sym) :
    s.symbols.get? id = some sym ∨ sym.isPublic = true
  lookup {k : SymbolId} {name : String} {v : Address} (mem : .lookup k name v ∈ t.trace) :
    .lookup k name v ∈ s.trace ∨ v = s.symbols.address k

/-- What a name can be given: a value of the source, or that it is external under its own number. -/
def Assigns (s : Assembler) : Naming → SymbolId → Address → Prop
  | .here _, _, a => s.Drawn a
  | .elsewhere _, id, a => a = .external id

/-- A step that gives a name, with number `id`, the address `a`. -/
structure Gives (s t : Assembler) (n : Naming) (id : SymbolId) (a : Address) : Prop where
  trace : ∃ e, e.naming? = some n ∧ e.isForeign = a.isExternal ∧ t.trace = e :: .defined id a :: s.trace
  known : s.identifiers.ids[n.name]? = some id
  new : (s.symbols.define id n.name a s.pass).1 ≠ .duplicate
  symbols : t.symbols = (s.symbols.define id n.name a s.pass).2
  value : s.Assigns n id a
  lookup {k : SymbolId} {name : String} {v : Address} (mem : .lookup k name v ∈ t.trace) : .lookup k name v ∈ s.trace

theorem Nameless.given (h : Nameless s t) : t.given = s.given := by
  unfold Assembler.given
  obtain same | ⟨e, none, same⟩ := h.trace
  · rw [same]
  · rw [same, List.filterMap_cons_none none]

theorem Gives.given {n : Naming} {id : SymbolId} {a : Address} (h : Gives s t n id a) : t.given = n :: s.given := by
  obtain ⟨e, naming, -, same⟩ := h.trace
  unfold Assembler.given
  rw [same, List.filterMap_cons_some naming, List.filterMap_cons_none rfl]

/-- A step that leaves the symbols, with no event that gives a name. -/
theorem Nameless.of_eq (symbols : t.symbols = s.symbols)
    (trace : t.trace = s.trace ∨ ∃ e, e.naming? = none ∧ t.trace = e :: s.trace)
    (lookup : ∀ {k : SymbolId} {name : String} {v : Address}, .lookup k name v ∈ t.trace →
      .lookup k name v ∈ s.trace ∨ v = s.symbols.address k) : Nameless s t :=
  ⟨trace, fun _ => by rw [symbols], fun _ h => ⟨_, symbols ▸ h, rfl⟩, fun _ h => .inl (symbols ▸ h), lookup⟩

theorem Nameless.of_trace_eq (symbols : t.symbols = s.symbols) (trace : t.trace = s.trace) : Nameless s t :=
  .of_eq symbols (.inl trace) fun mem => .inl (trace ▸ mem)

/-- A name is given with two events, neither of which asks for one. -/
theorem Gives.of_assign (n : Naming) {id : SymbolId} {a : Address} (e : Event) (naming : e.naming? = some n)
    (foreign : e.isForeign = a.isExternal) (known : s.identifiers.ids[n.name]? = some id)
    (new : (s.symbols.define id n.name a s.pass).1 ≠ .duplicate) (value : s.Assigns n id a) :
    Gives s ((s.assign id n.name a).log e) n id a := by
  have other : e.isLookup = false := by
    cases e with
    | lookup => cases naming
    | _ => rfl
  refine ⟨⟨e, naming, foreign, rfl⟩, known, new, rfl, value, fun mem => ?_⟩
  exact Event.mem_of_kind Event.isLookup (Event.mem_of_kind Event.isLookup mem rfl other) rfl rfl

/-- An action gives no name, or one: a label or a definition here, an external name elsewhere. -/
theorem Action.naming (h : Action ids s t) : Nameless s t ∨ ∃ n id a, Gives s t n id a := by
  cases h with
  | load h => exact .inl (.of_trace_eq (by rw [load_eq h]) (by rw [load_eq h]))
  | @lookUp name id pos known =>
    refine .inl (.of_eq (by rw [lookUp_eq]) (.inr ⟨_, rfl, by rw [lookUp_eq]⟩) fun mem => ?_)
    rw [lookUp_eq] at mem
    obtain same | old := List.mem_cons.1 mem
    · cases same
      exact .inr rfl
    · exact .inl old
  | @place name id known new =>
    exact .inr ⟨.here name, id, _, .of_assign (.here name) _ rfl rfl known new (known_inSpace s _ _).drawn⟩
  | @equate name id value tokens rest known new drawn =>
    exact .inr ⟨.here name, id, _, .of_assign (.here name) _ rfl rfl known new drawn⟩
  | @declareExternal name id known new =>
    exact .inr ⟨.elsewhere name, id, _, .of_assign (.elsewhere name) _ rfl rfl known new rfl⟩
  | @declarePublic name id known =>
    refine .inl ⟨.inr ⟨_, rfl, rfl⟩, fun _ => s.symbols.address_declarePublic .., fun {k sym} _ h => ?_,
      fun {k sym} _ h => ?_, fun mem => .inl (Event.mem_of_kind Event.isLookup mem rfl rfl)⟩
    · by_cases same : id = k
      · subst same
        exact ⟨_, s.symbols.get?_declarePublic_self id name, by rw [h]; rfl⟩
      · exact ⟨sym, (s.symbols.get?_declarePublic_of_ne id name same).trans h, rfl⟩
    · by_cases same : id = k
      · subst same
        cases (s.symbols.get?_declarePublic_self id name).symm.trans h
        exact .inr rfl
      · exact .inl ((s.symbols.get?_declarePublic_of_ne id name same).symm.trans h)
  | clash | operand | mark | branch =>
    exact .inl (.of_eq rfl (.inr ⟨_, rfl, rfl⟩) fun mem => .inl (Event.mem_of_kind Event.isLookup mem rfl rfl))
  | read | intern | report | switch | bytes | refuse => exact .inl (.of_trace_eq rfl rfl)

/-- A step gives no name, or one. Labels of blocks have numbers of their own. -/
theorem Step.naming (h : Step s t) : Nameless s t ∨ ∃ n id a, Gives s t n id a := by
  cases h with
  | act h => exact h.naming
  | allot | clash =>
    exact .inl (.of_eq rfl (.inr ⟨_, rfl, rfl⟩) fun mem => .inl (Event.mem_of_kind Event.isLookup mem rfl rfl))
  | @settle id auto new =>
    have other {k : SymbolId} (low : k.toNat < autoLabelBase) :
        (s.symbols.define id "" s.here s.pass).2.get? k = s.symbols.get? k := by
      apply s.symbols.get?_define_of_ne
      rintro rfl
      omega
    exact .inl ⟨.inr ⟨_, rfl, rfl⟩, fun low => SymbolTable.address_congr (other low),
      fun low h => ⟨_, (other low).trans h, rfl⟩, fun low h => .inl ((other low).symm.trans h),
      fun mem => .inl (Event.mem_of_kind Event.isLookup mem rfl rfl)⟩
  | @drop id auto free =>
    have other {k : SymbolId} (low : k.toNat < autoLabelBase) : (s.symbols.erase id).get? k = s.symbols.get? k := by
      apply s.symbols.get?_erase_of_ne
      rintro rfl
      omega
    exact .inl ⟨.inr ⟨_, rfl, rfl⟩, fun low => SymbolTable.address_congr (other low),
      fun low h => ⟨_, (other low).trans h, rfl⟩, fun low h => .inl ((other low).symm.trans h),
      fun mem => .inl (Event.mem_of_kind Event.isLookup mem rfl rfl)⟩
  | blocks | begin | list | stop => exact .inl (.of_trace_eq rfl rfl)

/-- No name has been given twice in this pass: those that were given have their entry from it. -/
structure Once (s : Assembler) : Prop where
  nodup : (s.given.map Naming.name).Nodup
  defined {n : Naming} (mem : n ∈ s.given) :
    ∃ id sym, s.identifiers.ids[n.name]? = some id ∧ s.symbols.get? id = some sym ∧ sym.pass = s.pass

namespace Once

theorem nameless (once : s.Once) (sound : s.Sound) (grows : Grows s t) (h : Nameless s t) : t.Once := by
  refine ⟨h.given ▸ once.nodup, fun {n} mem => ?_⟩
  obtain ⟨id, sym, known, found, now⟩ := once.defined (h.given ▸ mem)
  obtain ⟨after, found', same⟩ := h.pass (sound.numbered.toNat_lt known) found
  exact ⟨id, after, grows.identifiers known, found', by rw [same, now, grows.pass]⟩

/-- A name that is given had no entry from this pass, since a second definition is refused. -/
theorem gives (once : s.Once) (grows : Grows s t) {n : Naming} {id : SymbolId} {a : Address} (h : Gives s t n id a) :
    t.Once := by
  have entry : ∃ sym, t.symbols.get? id = some sym ∧ sym.pass = s.pass :=
    ⟨_, h.symbols ▸ s.symbols.get?_define_self id n.name a s.pass h.new, rfl⟩
  obtain ⟨entered, found, now⟩ := entry
  refine ⟨?_, fun {m} mem => ?_⟩
  · rw [h.given, List.map_cons, List.nodup_cons]
    refine ⟨fun mem => ?_, once.nodup⟩
    obtain ⟨m, mem, same⟩ := List.mem_map.1 mem
    obtain ⟨k, sym, known, found, now⟩ := once.defined mem
    rw [same, h.known] at known
    cases known
    exact h.new ((s.symbols.define_eq_duplicate_iff id n.name a s.pass).2 ⟨sym, found, now⟩)
  · rw [h.given] at mem
    obtain rfl | old := List.mem_cons.1 mem
    · exact ⟨id, entered, grows.identifiers h.known, found, by rw [now, grows.pass]⟩
    · obtain ⟨k, sym, known, before, pass⟩ := once.defined old
      by_cases same : id = k
      · subst same
        exact ⟨id, entered, grows.identifiers known, found, by rw [now, grows.pass]⟩
      · refine ⟨k, sym, grows.identifiers known, ?_, by rw [pass, grows.pass]⟩
        rw [h.symbols]
        exact (s.symbols.get?_define_of_ne n.name a s.pass same).trans before

theorem steps (once : s.Once) (sound : s.Sound) (h : Steps s t) : t.Once := by
  induction h with
  | refl => exact once
  | tail walked step ih =>
    obtain nameless | ⟨n, id, a, gives⟩ := step.naming
    · exact ih.nameless (sound.steps walked) step.grows nameless
    · exact ih.gives step.grows gives

theorem not_here (once : s.Once) {name : String} (elsewhere : .elsewhere name ∈ s.given) : .here name ∉ s.given := by
  intro here
  cases List.inj_on_of_nodup_map once.nodup elsewhere here rfl

end Once

/-- Every symbol with a name has it from one of the namings `D`, or has only been declared public. -/
def Entered (D : Naming → Prop) (s : Assembler) : Prop :=
  ∀ ⦃id : SymbolId⦄ ⦃sym : Symbol⦄, id.toNat < autoLabelBase → s.symbols.get? id = some sym →
    (∃ n, D n ∧ s.identifiers.ids[n.name]? = some id) ∨ sym.isPublic = true ∧ sym.address.isUndefined = true

namespace Entered

variable {D : Naming → Prop}

/-- A step that gives no name enters none, but by a public declaration. -/
theorem nameless (entered : s.Entered D) (grows : Grows s t) (h : Nameless s t) : t.Entered D := by
  intro id sym low found
  have keep : (∃ n, D n ∧ s.identifiers.ids[n.name]? = some id) → ∃ n, D n ∧ t.identifiers.ids[n.name]? = some id :=
    fun ⟨n, named, known⟩ => ⟨n, named, grows.identifiers known⟩
  obtain same | isPublic := h.entry low found
  · exact (entered low same).imp_left keep
  · cases unknown : sym.address.isUndefined with
    | true => exact .inr ⟨isPublic, rfl⟩
    | false =>
      -- the value is from before, so there was an entry
      have address := (SymbolTable.address_of_get? found).symm.trans (h.address low)
      cases before : s.symbols.get? id with
      | none =>
        rw [address, SymbolTable.address, before] at unknown
        cases unknown
      | some old =>
        rw [address, SymbolTable.address_of_get? before] at unknown
        obtain given | ⟨-, undefined⟩ := entered low before
        · exact .inl (keep given)
        · cases unknown.symm.trans undefined

theorem gives (entered : s.Entered D) (grows : Grows s t) {n : Naming} {number : SymbolId} {a : Address}
    (h : Gives s t n number a) (named : D n) : t.Entered D := by
  intro id sym low found
  rw [h.symbols] at found
  obtain before | ⟨rfl, -⟩ := s.symbols.of_get?_define number n.name a s.pass h.new found
  · exact (entered low before).imp_left fun ⟨m, named, known⟩ => ⟨m, named, grows.identifiers known⟩
  · exact .inl ⟨n, named, grows.identifiers h.known⟩

theorem steps (entered : s.Entered D) (h : Steps s t) (names : ∀ n ∈ t.given, D n) : t.Entered D := by
  induction h with
  | refl => exact entered
  | tail _ step ih =>
    have before := ih fun n mem => names n ((given_suffix step.grows).subset mem)
    obtain nameless | ⟨n, id, a, gives⟩ := step.naming
    · exact before.nameless step.grows nameless
    · exact before.gives step.grows gives (names n (gives.given ▸ List.mem_cons_self ..))

end Entered

/-- The number of a name that the namings `D` declare to have its value elsewhere. Its address says so, unless they
also give it a value here. -/
def Imported (D : Naming → Prop) (s : Assembler) (id : SymbolId) : Prop :=
  ∃ name, D (.elsewhere name) ∧ s.identifiers.ids[name]? = some id ∧ (s.symbols.get? id).isSome
    ∧ (¬ D (.here name) → s.symbols.address id = .external id)

/-- External values, in the table or asked for in this pass, refer to such names. -/
structure Imports (D : Naming → Prop) (s : Assembler) : Prop where
  table {k id : SymbolId} (h : (s.symbols.address k).origin = .external id) : s.Imported D id
  asked {k id : SymbolId} {name : String} {v : Address} (mem : .lookup k name v ∈ s.trace)
    (h : v.origin = .external id) : s.Imported D id

/-- Labels of blocks are not external. -/
theorem Sound.low_of_external (sound : s.Sound) {k id : SymbolId} (h : (s.symbols.address k).origin = .external id) :
    k.toNat < autoLabelBase := by
  cases found : s.symbols.get? k with
  | none =>
    rw [SymbolTable.address, found] at h
    cases h
  | some sym =>
    rw [SymbolTable.address_of_get? found] at h
    refine Nat.lt_of_not_le fun high => ?_
    obtain ⟨space, v, same⟩ := sound.symbols.label found high
    rw [same] at h
    cases h

namespace Imports

variable {D : Naming → Prop}

theorem nameless (imports : s.Imports D) (before : s.Sound) (after : t.Sound) (grows : Grows s t) (h : Nameless s t) :
    t.Imports D := by
  have keep {id : SymbolId} (imported : s.Imported D id) : t.Imported D id := by
    obtain ⟨name, declared, known, entry, external⟩ := imported
    have low := before.numbered.toNat_lt known
    exact ⟨name, declared, grows.identifiers known, grows.entries low entry,
      fun apart => (h.address low).trans (external apart)⟩
  refine ⟨fun {k id} origin => keep (imports.table (k := k) ?_), fun mem origin => keep ?_⟩
  · rwa [← h.address (after.low_of_external origin)]
  · obtain old | rfl := h.lookup mem
    · exact imports.asked old origin
    · exact imports.table origin

/-- A step that gives a name keeps external values referring to declared names. What an expression gives was asked
for. -/
theorem gives (imports : s.Imports D) (sound : s.Sound) (grows : Grows s t) {n : Naming} {number : SymbolId}
    {a : Address} (h : Gives s t n number a) (named : D n) : t.Imports D := by
  have self : t.symbols.address number = a := by
    rw [h.symbols]
    exact s.symbols.address_define number n.name a s.pass h.new
  have others {k : SymbolId} (other : number ≠ k) : t.symbols.address k = s.symbols.address k := by
    rw [h.symbols]
    exact SymbolTable.address_congr (s.symbols.get?_define_of_ne n.name a s.pass other)
  have keep {id : SymbolId} (imported : s.Imported D id) : t.Imported D id := by
    obtain ⟨name, declared, known, entry, external⟩ := imported
    have low := sound.numbered.toNat_lt known
    refine ⟨name, declared, grows.identifiers known, grows.entries low entry, fun apart => ?_⟩
    by_cases same : number = id
    · -- the name itself is given again: that it is elsewhere, since it is not given here
      subst same
      obtain rfl := sound.numbered.unique known h.known
      cases n with
      | here name => exact absurd named apart
      | elsewhere name => exact self.trans h.value
    · exact (others same).trans (external apart)
  refine ⟨fun {k id} origin => ?_, fun mem origin => keep (imports.asked (h.lookup mem) origin)⟩
  by_cases same : number = k
  · subst same
    rw [self] at origin
    cases n with
    | here name =>
      obtain ⟨k, asked, v, mem, external⟩ := Drawn.asked h.value origin
      exact keep (imports.asked mem external)
    | elsewhere name =>
      obtain rfl : a = .external number := h.value
      cases origin
      refine ⟨name, named, grows.identifiers h.known, ?_, fun _ => self⟩
      rw [h.symbols]
      exact Option.isSome_iff_exists.2 ⟨_, s.symbols.get?_define_self number name _ s.pass h.new⟩
  · exact keep (imports.table (others same ▸ origin))

theorem steps (imports : s.Imports D) (sound : s.Sound) (h : Steps s t) (names : ∀ n ∈ t.given, D n) : t.Imports D := by
  induction h with
  | refl => exact imports
  | tail walked step ih =>
    have before := sound.steps walked
    have earlier := ih fun n mem => names n ((given_suffix step.grows).subset mem)
    obtain nameless | ⟨n, id, a, gives⟩ := step.naming
    · exact earlier.nameless before (before.step step) step.grows nameless
    · exact earlier.gives before step.grows gives (names n (gives.given ▸ List.mem_cons_self ..))

end Imports

end Assembler

end Asm65
