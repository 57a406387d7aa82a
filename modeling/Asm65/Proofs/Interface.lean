import Asm65.Proofs.OrderedMap
import Asm65.Proofs.Result
import Asm65.Proofs.RunNames

/-!
# What a module imports and exports

Whether a symbol is imported is read off its address, so a name that an expression gives an external value is
imported along with the names that are declared external. It is not exported then, although it may be declared
public. All other names are imported and exported as they are declared.
-/

namespace Asm65
set_option autoImplicit false

/-- Whether a name was declared public. -/
def Event.isPublication : Event → Bool
  | .declared _ isPublic => isPublic
  | _ => false

/-- A definition makes no symbol public. -/
theorem SymbolTable.public_define_iff (t : SymbolTable) {id : SymbolId} {name : String} {a : Address} {pass : Nat}
    (new : (t.define id name a pass).1 ≠ .duplicate) {k : SymbolId} {n : String} :
    (∃ sym, (t.define id name a pass).2.get? k = some sym ∧ sym.name = n ∧ sym.isPublic = true) ↔
      ∃ sym, t.get? k = some sym ∧ sym.name = n ∧ sym.isPublic = true := by
  by_cases same : id = k
  · subst same
    rw [t.get?_define_self id name a pass new]
    cases t.get? id with
    | none => simp
    | some old => simp
  · rw [t.get?_define_of_ne name a pass same]

namespace Assembler

variable {b s t : Assembler} {name : String}

/-! ### Values of other modules -/

/-- The name has an external value. -/
def Foreign (s : Assembler) (name : String) : Prop :=
  ∃ id, s.identifiers.ids[name]? = some id ∧ (s.symbols.address id).isExternal = true

/-- An event of this pass gives the name a value of another module. -/
def GivenForeign (s : Assembler) (name : String) : Prop :=
  ∃ e ∈ s.trace, ∃ n, e.naming? = some n ∧ n.name = name ∧ e.isForeign = true

/-- Whether a name is external does not change while the address of its symbol stays. -/
theorem foreign_congr (before : s.Sound) (after : t.Sound) (grows : Grows s t)
    (address : ∀ {id : SymbolId}, t.identifiers.ids[name]? = some id → t.symbols.address id = s.symbols.address id) :
    t.Foreign name ↔ s.Foreign name := by
  constructor
  · rintro ⟨id, known, external⟩
    rw [address known] at external
    -- the number has an entry, which is of this name
    cases entry : s.symbols.get? id with
    | none =>
      rw [SymbolTable.address, entry] at external
      cases external
    | some sym =>
      have owner := before.symbols.named entry (after.numbered.toNat_lt known)
      obtain rfl := after.numbered.unique (grows.identifiers owner) known
      exact ⟨id, owner, external⟩
  · rintro ⟨id, known, external⟩
    exact ⟨id, grows.identifiers known, by rw [address (grows.identifiers known)]; exact external⟩

theorem Nameless.foreign_iff (h : Nameless s t) (before : s.Sound) (after : t.Sound) (grows : Grows s t) :
    t.Foreign name ↔ s.Foreign name :=
  foreign_congr before after grows fun known => h.address (after.numbered.toNat_lt known)

theorem Nameless.givenForeign_iff (h : Nameless s t) : t.GivenForeign name ↔ s.GivenForeign name := by
  unfold GivenForeign
  obtain same | ⟨e, none, same⟩ := h.trace
  · rw [same]
  · rw [same, List.exists_mem_cons_iff]
    refine or_iff_right ?_
    rintro ⟨n, naming, -⟩
    cases none.symm.trans naming

section

variable {n : Naming} {id : SymbolId} {a : Address}

theorem Gives.foreign_iff (h : Gives s t n id a) (grows : Grows s t) : t.Foreign n.name ↔ a.isExternal = true := by
  have self : t.symbols.address id = a := by
    rw [h.symbols]
    exact s.symbols.address_define id n.name a s.pass h.new
  have known := grows.identifiers h.known
  unfold Foreign
  constructor
  · rintro ⟨k, known', external⟩
    cases known.symm.trans known'
    rwa [self] at external
  · intro external
    exact ⟨id, known, self.symm ▸ external⟩

theorem Gives.foreign_iff_of_ne (h : Gives s t n id a) (before : s.Sound) (after : t.Sound) (grows : Grows s t)
    (other : n.name ≠ name) : t.Foreign name ↔ s.Foreign name := by
  refine foreign_congr before after grows fun {k} known => ?_
  have different : id ≠ k := by
    rintro rfl
    exact other (after.numbered.unique (grows.identifiers h.known) known)
  rw [h.symbols]
  exact SymbolTable.address_congr (s.symbols.get?_define_of_ne n.name a s.pass different)

theorem Gives.givenForeign_iff (h : Gives s t n id a) :
    t.GivenForeign name ↔ n.name = name ∧ a.isExternal = true ∨ s.GivenForeign name := by
  obtain ⟨e, naming, foreign, same⟩ := h.trace
  unfold GivenForeign
  rw [same, List.exists_mem_cons_iff, List.exists_mem_cons_iff, naming, foreign]
  simp [Event.naming?]

end

/-- Events that give a name are among those given. -/
theorem GivenForeign.mem_given (h : s.GivenForeign name) : name ∈ s.given.map Naming.name := by
  obtain ⟨e, mem, n, naming, named, -⟩ := h
  exact List.mem_map.2 ⟨n, List.mem_filterMap.2 ⟨e, mem, naming⟩, named⟩

/-- What a pass makes of a name: what it gives it, or else what it found. -/
theorem foreign_iff_of_steps (sound : b.Sound) (begun : b.trace = []) (h : Steps b t) :
    t.Foreign name ↔ t.GivenForeign name ∨ name ∉ t.given.map Naming.name ∧ b.Foreign name := by
  have none : b.given = [] := by
    unfold given
    rw [begun]
    rfl
  induction h with
  | refl => simp [GivenForeign, none, begun]
  | @tail s t walked step ih =>
    have before := sound.steps walked
    have once : s.Once := Once.steps ⟨by simp [none], by simp [none]⟩ sound walked
    obtain nameless | ⟨n, id, a, gives⟩ := step.naming
    · rw [nameless.foreign_iff before (before.step step) step.grows, nameless.givenForeign_iff, nameless.given]
      exact ih
    · have after : t.Once := once.gives step.grows gives
      have nodup := after.nodup
      rw [gives.given, List.map_cons, List.nodup_cons] at nodup
      rw [gives.givenForeign_iff, gives.given, List.map_cons, List.mem_cons]
      by_cases same : n.name = name
      · subst same
        have fresh : ¬ s.GivenForeign n.name := fun again => nodup.1 again.mem_given
        rw [gives.foreign_iff step.grows]
        simp [fresh]
      · rw [gives.foreign_iff_of_ne before (before.step step) step.grows same]
        simpa [same, Ne.symm same] using ih

/-! ### Public names -/

/-- The name is public. -/
def Exposed (s : Assembler) (name : String) : Prop :=
  ∃ id : SymbolId, id.toNat < autoLabelBase ∧ ∃ sym, s.symbols.get? id = some sym ∧ sym.name = name ∧ sym.isPublic = true

theorem exposed_congr (h : ∀ id : SymbolId, id.toNat < autoLabelBase → t.symbols.get? id = s.symbols.get? id) :
    t.Exposed name ↔ s.Exposed name := by
  refine exists_congr fun id => and_congr_right fun low => ?_
  rw [h id low]

theorem exposed_assign {id : SymbolId} {n : String} {a : Address}
    (new : (s.symbols.define id n a s.pass).1 ≠ .duplicate) : (s.assign id n a).Exposed name ↔ s.Exposed name :=
  exists_congr fun _ => and_congr_right fun _ => s.symbols.public_define_iff new

/-- Declaring a name public makes this name public, and no other. -/
theorem exposed_declarePublic (sound : s.Sound) {id : SymbolId} {n : String} (known : s.identifiers.ids[n]? = some id) :
    ({ s with symbols := s.symbols.declarePublic id n } : Assembler).Exposed name ↔ n = name ∨ s.Exposed name := by
  have low := sound.numbered.toNat_lt known
  -- what stood under the number has the same name
  have self : ∃ sym, (s.symbols.declarePublic id n).get? id = some sym ∧ sym.name = n ∧ sym.isPublic = true := by
    rw [s.symbols.get?_declarePublic_self]
    refine ⟨_, rfl, ?_, rfl⟩
    cases entry : s.symbols.get? id with
    | none => rfl
    | some old =>
      have owner := sound.symbols.named entry low
      exact sound.numbered.unique owner known
  constructor
  · rintro ⟨k, below, sym, found, named, isPublic⟩
    by_cases same : id = k
    · subst same
      obtain ⟨sym', found', named', -⟩ := self
      cases found.symm.trans found'
      exact .inl (named'.symm.trans named)
    · rw [s.symbols.get?_declarePublic_of_ne id n same] at found
      exact .inr ⟨k, below, sym, found, named, isPublic⟩
  · rintro (rfl | ⟨k, below, sym, found, named, isPublic⟩)
    · exact ⟨id, low, self⟩
    · by_cases same : id = k
      · subst same
        obtain ⟨sym', found', named', isPublic'⟩ := self
        have owner := sound.numbered.unique (sound.symbols.named found below) known
        exact ⟨id, below, sym', found', named'.trans (owner.symm.trans named), isPublic'⟩
      · refine ⟨k, below, sym, ?_, named, isPublic⟩
        exact (s.symbols.get?_declarePublic_of_ne id n same).trans found

/-- Since `b` those names have become public that were declared so. -/
def Discloses (b s : Assembler) (name : String) : Prop :=
  s.Exposed name ↔ .declared name true ∈ s.trace ∨ b.Exposed name

namespace Discloses

theorem of_eq (h : Discloses b s name) (symbols : t.symbols = s.symbols) (trace : t.trace = s.trace) :
    Discloses b t name := by
  have exposed : t.Exposed name ↔ s.Exposed name := exposed_congr fun _ _ => by rw [symbols]
  unfold Discloses
  rw [trace]
  exact exposed.trans h

/-- Events other than declarations make nothing public. -/
theorem of_event (h : Discloses b s name) (exposed : t.Exposed name ↔ s.Exposed name) {e : Event}
    (trace : t.trace = e :: s.trace) (other : e.isPublication = false) : Discloses b t name := by
  have declared : .declared name true ∈ t.trace ↔ .declared name true ∈ s.trace := by
    rw [trace]
    exact ⟨fun mem => Event.mem_of_kind Event.isPublication mem rfl other, List.mem_cons_of_mem _⟩
  unfold Discloses
  rw [exposed, declared]
  exact h

theorem log (h : Discloses b s name) {e : Event} (other : e.isPublication = false) : Discloses b (s.log e) name :=
  h.of_event .rfl rfl other

theorem assign (h : Discloses b s name) {id : SymbolId} {n : String} {a : Address}
    (new : (s.symbols.define id n a s.pass).1 ≠ .duplicate) : Discloses b (s.assign id n a) name :=
  h.of_event (exposed_assign new) rfl rfl

theorem declarePublic (h : Discloses b s name) (sound : s.Sound) {id : SymbolId} {n : String}
    (known : s.identifiers.ids[n]? = some id) :
    Discloses b (Assembler.log { s with symbols := s.symbols.declarePublic id n } (.declared n true)) name := by
  have exposed : Exposed { s with symbols := s.symbols.declarePublic id n } name ↔ n = name ∨ s.Exposed name :=
    exposed_declarePublic sound known
  unfold Discloses at h ⊢
  rw [h] at exposed
  refine exposed.trans ?_
  simp only [Assembler.log, List.mem_cons, Event.declared.injEq, and_true, or_assoc, eq_comm]

theorem act {ids : List SymbolId} (h : Discloses b s name) (sound : s.Sound) (action : Action ids s t) :
    Discloses b t name := by
  cases action with
  | load loaded => exact h.of_eq (by rw [load_eq loaded]) (by rw [load_eq loaded])
  | lookUp pos known =>
    rw [lookUp_eq]
    exact h.of_event (exposed_congr fun _ _ => rfl) rfl rfl
  | place known new => exact (h.assign new).log rfl
  | equate known new => exact (h.assign new).log rfl
  | declareExternal known new => exact (h.assign new).log rfl
  | declarePublic known => exact h.declarePublic sound known
  | clash | operand | mark | branch => exact h.of_event (exposed_congr fun _ _ => rfl) rfl rfl
  | read | intern | report | switch | bytes | refuse => exact h.of_eq rfl rfl

theorem step (h : Discloses b s name) (sound : s.Sound) (step : Step s t) : Discloses b t name := by
  cases step with
  | act action => exact h.act sound action
  | allot | clash => exact h.of_event (exposed_congr fun _ _ => rfl) rfl rfl
  | settle auto new => exact h.assign new
  | @drop id auto free =>
    refine h.of_event (exposed_congr fun k low => s.symbols.get?_erase_of_ne ?_) rfl rfl
    rintro rfl
    omega
  | blocks | begin | list | stop => exact h.of_eq rfl rfl

theorem steps (sound : b.Sound) (begun : b.trace = []) (h : Steps b t) : Discloses b t name := by
  induction h with
  | refl => simp [Discloses, begun]
  | tail walked step ih => exact ih.step (sound.steps walked) step

end Discloses

/-! ### The passes of a run -/

/-- An expression gives the name a value of another module. -/
def Borrows (s : Assembler) (name : String) : Prop :=
  ∃ tokens space offset value, .equated name tokens space offset value ∈ s.trace ∧ value.isExternal = true

theorem elsewhere_mem_given : .elsewhere name ∈ s.given ↔ .declared name false ∈ s.trace := by
  unfold given
  rw [List.mem_filterMap]
  constructor
  · rintro ⟨e, mem, naming⟩
    cases e with
    | declared n isPublic =>
      cases isPublic with
      | false =>
        cases naming
        exact mem
      | true => cases naming
    | _ => cases naming
  · intro mem
    exact ⟨_, mem, rfl⟩

/-- A name gets a value of another module by a declaration or by an expression. -/
theorem givenForeign_iff : s.GivenForeign name ↔ .declared name false ∈ s.trace ∨ s.Borrows name := by
  constructor
  · rintro ⟨e, mem, n, naming, rfl, foreign⟩
    cases e with
    | declared n isPublic =>
      cases isPublic with
      | false =>
        cases naming
        exact .inl mem
      | true => cases naming
    | equated =>
      cases naming
      exact .inr ⟨_, _, _, _, mem, foreign⟩
    | placed => cases foreign
    | _ => cases naming
  · rintro (mem | ⟨tokens, space, offset, value, mem, external⟩)
    · exact ⟨_, mem, _, rfl, rfl, rfl⟩
    · exact ⟨_, mem, _, rfl, rfl, external⟩

/-- One of `n` passes declares the name. -/
def DeclaredIn (root : Nat) (s : Assembler) (n : Nat) (name : String) (isPublic : Bool) : Prop :=
  ∃ i < n, .declared name isPublic ∈ (afterPasses root s (i + 1)).trace

/-- Of `n` passes, the last one that gives the name does so in that way. -/
def LastGiven (root : Nat) (s : Assembler) (n : Nat) (name : String) (how : Assembler → Prop) : Prop :=
  ∃ i < n, how (afterPasses root s (i + 1))
    ∧ ∀ j < n, i < j → name ∉ (afterPasses root s (j + 1)).given.map Naming.name

section

variable {root n : Nat} {how : Assembler → Prop}

theorem declaredIn_succ {isPublic : Bool} : DeclaredIn root s (n + 1) name isPublic ↔
    .declared name isPublic ∈ (afterPasses root s (n + 1)).trace ∨ DeclaredIn root s n name isPublic := by
  unfold DeclaredIn
  rw [Nat.exists_lt_succ_right, or_comm]

theorem lastGiven_succ : LastGiven root s (n + 1) name how ↔ how (afterPasses root s (n + 1))
    ∨ name ∉ (afterPasses root s (n + 1)).given.map Naming.name ∧ LastGiven root s n name how := by
  constructor
  · rintro ⟨i, early, given, last⟩
    obtain earlier | rfl := Nat.lt_succ_iff_lt_or_eq.1 early
    · exact .inr ⟨last n n.lt_succ_self earlier, i, earlier, given, fun j lt => last j (Nat.lt_succ_of_lt lt)⟩
    · exact .inl given
  · rintro (given | ⟨notGiven, i, early, given, last⟩)
    · exact ⟨n, n.lt_succ_self, given, fun j le lt => absurd lt (Nat.not_lt.2 (Nat.le_of_lt_succ le))⟩
    · refine ⟨i, Nat.lt_succ_of_lt early, given, fun j le lt => ?_⟩
      obtain earlier | rfl := Nat.lt_succ_iff_lt_or_eq.1 le
      · exact last j earlier lt
      · exact notGiven

theorem exposed_afterPasses (sound : s.Sound) (root n : Nat) (hidden : ¬ s.Exposed name) :
    (afterPasses root s n).Exposed name ↔ DeclaredIn root s n name true := by
  induction n with
  | zero => simp [DeclaredIn, afterPasses, hidden]
  | succ n ih =>
    have sound := sound.afterPasses root n
    have begun : ((afterPasses root s n).begun root).Exposed name ↔ (afterPasses root s n).Exposed name :=
      exposed_congr fun _ _ => rfl
    have pass : Discloses _ (afterPasses root s (n + 1)) name :=
      .steps (sound.begun root) rfl (steps_onePass sound root)
    rw [declaredIn_succ, ← ih, ← begun]
    exact pass

theorem foreign_afterPasses (sound : s.Sound) (root n : Nat) (own : ¬ s.Foreign name) :
    (afterPasses root s n).Foreign name ↔ LastGiven root s n name (GivenForeign · name) := by
  induction n with
  | zero => simp [LastGiven, afterPasses, own]
  | succ n ih =>
    have sound := sound.afterPasses root n
    have steps : Steps ((afterPasses root s n).begun root) (afterPasses root s (n + 1)) := steps_onePass sound root
    rw [lastGiven_succ, ← ih]
    exact foreign_iff_of_steps (b := (afterPasses root s n).begun root) (sound.begun root) rfl steps

/-- A name that one pass declares external gets no other value from any. -/
theorem declared_of_mem_given (one : s.files.NamesOneFile (afterPasses root s n).files) (sound : s.Sound)
    (clean : (afterPasses root s n).diagnostics.isEmpty = true) (declared : DeclaredIn root s n name false) {m : Nat}
    (lt : m < n) (named : name ∈ (afterPasses root s (m + 1)).given.map Naming.name) :
    .declared name false ∈ (afterPasses root s (m + 1)).trace := by
  obtain ⟨i, early, mem⟩ := declared
  obtain ⟨naming, given, rfl⟩ := List.mem_map.1 named
  cases naming with
  | elsewhere name => exact elsewhere_mem_given.1 given
  | here name =>
    have elsewhere : GivenIn root s n (.elsewhere name) := ⟨i, early, elsewhere_mem_given.2 mem⟩
    exact absurd ⟨m, lt, given⟩ (not_here_of_elsewhere one sound clean elsewhere)

/-- The last pass to give a name gives it a value of another module if and only if the name was declared external or
an expression gave it last. A declaration of an earlier pass counts, since no pass gives such a name another value. -/
theorem lastGiven_foreign_iff (one : s.files.NamesOneFile (afterPasses root s n).files) (sound : s.Sound)
    (clean : (afterPasses root s n).diagnostics.isEmpty = true) {m : Nat} (le : m ≤ n) :
    LastGiven root s m name (GivenForeign · name) ↔
      DeclaredIn root s m name false ∨ LastGiven root s m name (Borrows · name) := by
  induction m with
  | zero => simp [LastGiven, DeclaredIn]
  | succ m ih =>
    rw [lastGiven_succ, lastGiven_succ, declaredIn_succ, givenForeign_iff, ih (Nat.le_of_succ_le le)]
    constructor
    · rintro ((declared | borrows) | ⟨fresh, declared | borrowed⟩)
      · exact .inl (.inl declared)
      · exact .inr (.inl borrows)
      · exact .inl (.inr declared)
      · exact .inr (.inr ⟨fresh, borrowed⟩)
    · rintro ((declared | declared) | borrows | ⟨fresh, borrowed⟩)
      · exact .inl (.inl declared)
      · by_cases again : name ∈ (afterPasses root s (m + 1)).given.map Naming.name
        · obtain ⟨i, early, mem⟩ := declared
          exact .inl (.inl (declared_of_mem_given one sound clean ⟨i, Nat.lt_trans early le, mem⟩ le again))
        · exact .inr ⟨again, .inl declared⟩
      · exact .inl (.inr borrows)
      · exact .inr ⟨fresh, .inr borrowed⟩

end

/-! ### The lists of the module -/

section

variable {sym : Symbol}

theorem mem_values_toObject : sym ∈ s.toObject.symbols.values ↔
    ∃ id : SymbolId, s.symbols.get? id = some sym ∧ id.toNat < autoLabelBase := by
  rw [OrderedMap.mem_values]
  exact exists_congr fun id => SymbolTable.getElem?_named

/-- A symbol has an external value if its name has. -/
theorem foreign_iff_of_mem (sound : s.Sound) (mem : sym ∈ s.toObject.symbols.values) :
    s.Foreign sym.name ↔ sym.address.isExternal = true := by
  obtain ⟨id, found, low⟩ := mem_values_toObject.1 mem
  have known := sound.symbols.named found low
  rw [← SymbolTable.address_of_get? found]
  constructor
  · rintro ⟨k, known', external⟩
    cases known.symm.trans known'
    exact external
  · intro external
    exact ⟨id, known, external⟩

/-- The names that an object asks for are those with an external value. -/
theorem mem_externals_iff (sound : s.Sound) : name ∈ s.toObject.externals.map (·.name) ↔ s.Foreign name := by
  constructor
  · intro named
    obtain ⟨sym, listed, rfl⟩ := List.mem_map.1 named
    obtain ⟨mem, external⟩ := List.mem_filter.1 listed
    exact (foreign_iff_of_mem sound mem).2 external
  · rintro ⟨id, known, external⟩
    cases entry : s.symbols.get? id with
    | none =>
      rw [SymbolTable.address, entry] at external
      cases external
    | some sym =>
      have low := sound.numbered.toNat_lt known
      have owner := sound.symbols.named entry low
      rw [SymbolTable.address_of_get? entry] at external
      refine List.mem_map.2 ⟨sym, List.mem_filter.2 ⟨mem_values_toObject.2 ⟨id, entry, low⟩, external⟩, ?_⟩
      exact sound.numbered.unique owner known

/-- Public symbols with a value are provided, except for those of other modules. -/
theorem mem_publics_iff (sound : s.Sound)
    (defined : ∀ sym ∈ s.toObject.symbols.values, sym.isPublic = true → sym.address.isUndefined = false) :
    name ∈ s.toObject.publics.map (·.name) ↔ s.Exposed name ∧ ¬ s.Foreign name := by
  constructor
  · intro named
    obtain ⟨sym, listed, rfl⟩ := List.mem_map.1 named
    obtain ⟨mem, provided⟩ := List.mem_filter.1 listed
    rw [Symbol.isProvided, Bool.and_eq_true, Bool.and_eq_true, Bool.not_eq_true'] at provided
    obtain ⟨⟨isPublic, own⟩, -⟩ := provided
    obtain ⟨id, found, low⟩ := mem_values_toObject.1 mem
    refine ⟨⟨id, low, sym, found, rfl, isPublic⟩, ?_⟩
    rw [foreign_iff_of_mem sound mem, own]
    exact nofun
  · rintro ⟨⟨id, low, sym, found, rfl, isPublic⟩, own⟩
    have mem := mem_values_toObject.2 ⟨id, found, low⟩
    rw [foreign_iff_of_mem sound mem, Bool.not_eq_true] at own
    refine List.mem_map.2 ⟨sym, List.mem_filter.2 ⟨mem, ?_⟩, rfl⟩
    rw [Symbol.isProvided, isPublic, own, defined sym mem isPublic]
    rfl

theorem nodup_names (sound : s.Sound) : (s.toObject.symbols.values.map (·.name)).Nodup := by
  have distinct : s.toObject.symbols.toList.Pairwise fun a b => ¬ compare a.1 b.1 = .eq :=
    Std.ExtTreeMap.distinct_keys_toList
  rw [OrderedMap.values_eq, List.map_map, List.Nodup, List.pairwise_map]
  refine distinct.imp_of_mem fun {a b} mem mem' apart same => apart ?_
  obtain ⟨found, low⟩ := SymbolTable.getElem?_named.1 (Std.ExtTreeMap.mem_toList_iff_getElem?_eq_some.1 mem)
  obtain ⟨found', low'⟩ := SymbolTable.getElem?_named.1 (Std.ExtTreeMap.mem_toList_iff_getElem?_eq_some.1 mem')
  have named : a.2.name = b.2.name := same
  have number : s.identifiers.ids[b.2.name]? = some a.1 := named ▸ sound.symbols.named found low
  have keys : a.1 = b.1 := Option.some.inj (number.symm.trans (sound.symbols.named found' low'))
  rw [keys]
  exact Std.ReflCmp.compare_self

/-- No name is in both lists, or in one of them twice. -/
theorem nodup_interface (sound : s.Sound) :
    ((s.toObject.externals ++ s.toObject.publics).map (·.name)).Nodup := by
  have nodup := nodup_names sound
  rw [List.map_append, List.nodup_append]
  refine ⟨nodup.sublist (List.filter_sublist.map _), nodup.sublist (List.filter_sublist.map _), ?_⟩
  rintro _ imported _ exported rfl
  obtain ⟨sym, listed, named⟩ := List.mem_map.1 imported
  obtain ⟨sym', listed', named'⟩ := List.mem_map.1 exported
  obtain ⟨mem, external⟩ := List.mem_filter.1 listed
  obtain ⟨mem', provided⟩ := List.mem_filter.1 listed'
  cases List.inj_on_of_nodup_map nodup mem mem' (named.trans named'.symm)
  simp [Symbol.isProvided, external] at provided

end

variable {root : Nat} {asm : Assembly}

theorem isUndefined_eq_false_of_onePass (sound : s.Sound) (later : 2 ≤ (s.onePass root).pass)
    (clean : (s.onePass root).diagnostics.isEmpty = true) {sym : Symbol}
    (mem : sym ∈ (s.onePass root).toObject.symbols.values) : sym.isPublic = true → sym.address.isUndefined = false := by
  obtain ⟨id, found, -⟩ := mem_values_toObject.1 mem
  have laidOut := (sound.begun root).steps (reaches_laidOut sound root).steps
  exact isUndefined_eq_false_of_endPass laidOut later clean ((OrderedMap.mem_values _).2 ⟨id, found⟩)

theorem IsNew.not_foreign (new : s.IsNew) (name : String) : ¬ s.prepared.Foreign name := by
  rw [new]
  rintro ⟨id, known, external⟩
  cases external

theorem IsNew.not_exposed (new : s.IsNew) (name : String) : ¬ s.prepared.Exposed name := by
  rw [new]
  rintro ⟨id, low, sym, found, -⟩
  cases found

/-- The names that a module imports and exports, each listed once. It imports those that got their value, in the last
pass that gave them one, by an external declaration or by an expression of external value; it exports the others that
a pass declared public. A name declared external is always among the first, as long as no included name comes to
stand for another file between passes, which is so whenever all files are in memory. -/
theorem imports_exports_of_run (new : s.IsNew) (run : s.run root = (.ok asm, t)) :
    (∀ name, name ∈ asm.object.externals.map (·.name) ↔
        LastGiven root s.prepared asm.passes name fun u => .declared name false ∈ u.trace ∨ u.Borrows name)
      ∧ (∀ name, name ∈ asm.object.publics.map (·.name) ↔
          DeclaredIn root s.prepared asm.passes name true ∧ name ∉ asm.object.externals.map (·.name))
      ∧ ((asm.object.externals ++ asm.object.publics).map (·.name)).Nodup
      ∧ (s.files.NamesOneFile t.files → ∀ name, name ∈ asm.object.externals.map (·.name) ↔
          DeclaredIn root s.prepared asm.passes name false
            ∨ LastGiven root s.prepared asm.passes name fun u => u.Borrows name)
      ∧ (s.disk.files = ∅ → s.files.NamesOneFile t.files) := by
  obtain ⟨n, last, concludes⟩ := exists_passes new run
  have prepared := new.prepared.1
  have sound := prepared.afterPasses root (n + 1)
  have passes : asm.passes = n + 1 := by
    rw [concludes.passes, pass_afterPasses prepared root (n + 1)]
    exact Nat.zero_add _
  have imports (name : String) : name ∈ asm.object.externals.map (·.name) ↔
      LastGiven root s.prepared (n + 1) name (GivenForeign · name) := by
    rw [concludes.object, mem_externals_iff sound]
    exact foreign_afterPasses prepared root (n + 1) (new.not_foreign name)
  rw [passes]
  refine ⟨fun name => ?_, fun name => ?_, ?_, fun one name => ?_, namesOneFile_of_run new run⟩
  · rw [imports]
    simp only [givenForeign_iff]
  · rw [concludes.object, mem_externals_iff sound, ← exposed_afterPasses prepared root (n + 1) (new.not_exposed name)]
    refine mem_publics_iff sound fun sym mem => ?_
    exact isUndefined_eq_false_of_onePass (prepared.afterPasses root n) last.later last.clean mem
  · rw [concludes.object]
    exact nodup_interface sound
  · rw [concludes.files] at one
    rw [imports]
    exact lastGiven_foreign_iff one prepared last.clean (Nat.le_refl _)

/-- A module that jumps to a name it defines by one of another module; that one it also declares public. -/
def beyondExternal : Assembler := ofText " extern e\n public p, e\np: jmp q\nq = e + 2\n"

/-- Both names are imported, `e` by its declaration and `q` by the expression that gives it a value. Only `p` is
exported. -/
theorem imports_exports_beyond_external :
    ∃ asm t, beyondExternal.run 0 = (.ok asm, t) ∧ asm.object.externals.map (·.name) = ["e", "q"]
      ∧ (LastGiven 0 beyondExternal.prepared asm.passes "q" fun u => .declared "q" false ∈ u.trace ∨ u.Borrows "q")
      ∧ DeclaredIn 0 beyondExternal.prepared asm.passes "p" true ∧ "e" ∉ asm.object.publics.map (·.name) := by
  obtain ⟨asm, t, run, checked⟩ := exists_run beyondExternal 0
    (fun asm _ => decide (asm.object.externals.map (·.name) = ["e", "q"])
      && decide (asm.object.publics.map (·.name) = ["p"])) (by decide +kernel)
  rw [Bool.and_eq_true, decide_eq_true_eq, decide_eq_true_eq] at checked
  obtain ⟨imported, exported⟩ := checked
  obtain ⟨imports, exports, -⟩ := imports_exports_of_run (isNew_ofText _) run
  refine ⟨asm, t, run, imported, (imports "q").1 ?_, ((exports "p").1 ?_).1, fun listed => ?_⟩
  · rw [imported]
    decide
  · rw [exported]
    decide
  · have own := ((exports "e").1 listed).2
    rw [imported] at own
    exact own (by decide)

/-- A module with a public name that it defines by one of another module. -/
def publicBeyondExternal : Assembler := ofText "  extern e\n  public p\np = e + 1\n"

/-- The name is imported, although no pass declares it external, and is not exported. -/
theorem public_name_imported_not_exported :
    ∃ asm t, publicBeyondExternal.run 0 = (.ok asm, t)
      ∧ asm.object.externals.map (·.name) = ["e", "p"] ∧ asm.object.publics.map (·.name) = []
      ∧ DeclaredIn 0 publicBeyondExternal.prepared asm.passes "p" true
      ∧ ¬ DeclaredIn 0 publicBeyondExternal.prepared asm.passes "p" false := by
  obtain ⟨asm, t, run, checked⟩ := exists_run publicBeyondExternal 0
    (fun asm _ => decide (asm.object.externals.map (·.name) = ["e", "p"])
      && decide (asm.object.publics.map (·.name) = []) && decide (asm.passes = 2)) (by decide +kernel)
  rw [Bool.and_eq_true, Bool.and_eq_true, decide_eq_true_eq, decide_eq_true_eq, decide_eq_true_eq] at checked
  obtain ⟨⟨imported, exported⟩, passes⟩ := checked
  refine ⟨asm, t, run, imported, exported, ?_⟩
  rw [passes]
  unfold DeclaredIn
  exact ⟨by decide +kernel, by decide +kernel⟩

end Assembler

end Asm65
