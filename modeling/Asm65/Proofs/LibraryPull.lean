import Asm65.Proofs.Loading

/-!
# Pulling from libraries

The search for library modules is a loop of rounds without a bound of its own. Here it is told as such: one pull
at a time, each justified by the state it was made in, and as rounds that go on until one of them loads nothing.
Every pull takes a module off a shelf, so the bounded loop that runs makes all the rounds of the unbounded one.
-/

namespace Asm65
set_option autoImplicit false

namespace Shelf

/-- The flags are those of the modules, and the index refers to modules that exist. A module need not export the
names that the index has for it. -/
structure Indexed (s : Shelf) : Prop where
  flags : s.taken.size = s.library.objects.size
  entries {name : String} {i : UInt16} (h : s.library.index[name]? = some i) : i.toNat < s.library.objects.size

theorem indexed_ofLibrary {name : String} {library : Library}
    (entries : ∀ {name : String} {i : UInt16}, library.index[name]? = some i → i.toNat < library.objects.size) :
    (ofLibrary name library).Indexed :=
  ⟨Array.size_replicate, entries⟩

/-- The shelf without module `i`. -/
def without (s : Shelf) (i : Nat) : Shelf := { s with taken := s.taken.setIfInBounds i true }

theorem Indexed.without {s : Shelf} (indexed : s.Indexed) (i : Nat) : (s.without i).Indexed :=
  ⟨Array.size_setIfInBounds.trans indexed.flags, indexed.entries⟩

theorem of_provider? {s : Shelf} {name : String} {i : Nat} (h : s.provider? name = some i) :
    s.taken[i]? = some false := by
  simpa using (Option.filter_eq_some_iff.1 h).2

theorem left_without {s : Shelf} {i : Nat} (h : s.taken[i]? = some false) : s.left = (s.without i).left + 1 := by
  obtain ⟨bound, free⟩ := Array.getElem?_eq_some_iff.1 h
  have some_left : 0 < s.taken.count false := Array.count_pos_iff.2 (free ▸ Array.getElem_mem bound)
  unfold left Shelf.without
  rw [Array.setIfInBounds_def, dif_pos bound, Array.count_set, free]
  simp
  omega

theorem Indexed.exists_take? {s : Shelf} (indexed : s.Indexed) {name : String} {i : Nat} (h : s.provider? name = some i) :
    ∃ o, s.take? i = some (o, s.without i) := by
  have free := of_provider? h
  obtain ⟨bound, -⟩ := Array.getElem?_eq_some_iff.1 free
  rw [indexed.flags] at bound
  exact ⟨_, by rw [take?, if_pos free, Array.getElem?_eq_getElem bound]; rfl⟩

theorem of_take? {s t : Shelf} {i : Nat} {o : Object} (h : s.take? i = some (o, t)) :
    s.library.objects[i]? = some o ∧ t = s.without i := by
  unfold take? at h
  split at h
  · obtain ⟨o', found, same⟩ := Option.map_eq_some_iff.1 h
    cases same
    exact ⟨found, rfl⟩
  · cases h

end Shelf

namespace Linker

/-- A library module that is loaded for a name. -/
structure Pull where
  name : String
  /-- The place of its shelf among the shelves. -/
  place : Nat
  shelf : Shelf
  /-- The number of the module on the shelf. -/
  index : Nat
  object : Object

namespace Pull

/-- The name that the module gets. -/
def module (p : Pull) : String := p.shelf.moduleName p.index

def named (p : Pull) : NamedObject := ⟨p.module, p.object⟩

end Pull

/-- One module is loaded: the name is wanted, the shelf is the first that offers a module for it, and the module is
the one it offers. -/
structure Pulls (l : Linker) (p : Pull) (l' : Linker) : Prop where
  wanted : ∃ module, l.globals[p.name]? = some (.wanted module)
  shelf : l.shelves[p.place]? = some p.shelf
  first : ∀ s ∈ l.shelves.take p.place, s.provider? p.name = none
  offered : p.shelf.provider? p.name = some p.index
  object : p.shelf.library.objects[p.index]? = some p.object
  loaded : l' = (({ l with shelves := l.shelves.set p.place (p.shelf.without p.index) } : Linker).log
    (.resolves p.module p.name)).addObject p.module p.object

/-- Modules are loaded one after another. -/
inductive PullsAll : Linker → List Pull → Linker → Prop where
  | nil (l : Linker) : PullsAll l [] l
  | cons {l m r : Linker} {p : Pull} {ps : List Pull} (first : l.Pulls p m) (rest : PullsAll m ps r) :
    PullsAll l (p :: ps) r

namespace PullsAll

theorem append {l m r : Linker} {ps qs : List Pull} (first : PullsAll l ps m) (second : PullsAll m qs r) :
    PullsAll l (ps ++ qs) r := by
  induction first with
  | nil => exact second
  | cons one _ ih => exact .cons one (ih second)

end PullsAll

/-- The rounds, until one loads nothing. -/
inductive Rounds : Linker → Linker → Prop where
  | stop {l m : Linker} (idle : l.pullEach l.wanted = (m, false)) : Rounds l m
  | again {l m r : Linker} (busy : l.pullEach l.wanted = (m, true)) (rest : Rounds m r) : Rounds l r

theorem mem_wanted {l : Linker} {name : String} : name ∈ l.wanted ↔ ∃ module, l.globals[name]? = some (.wanted module) := by
  unfold wanted
  simp only [List.mem_map, List.mem_filter, Prod.exists, exists_and_right, exists_eq_right,
    Std.ExtTreeMap.mem_toList_iff_getElem?_eq_some]
  constructor
  · rintro ⟨g, found, wanted⟩
    cases g with
    | wanted module => exact ⟨module, found⟩
    | defined => cases wanted
  · rintro ⟨module, found⟩
    exact ⟨_, found, rfl⟩

/-! ### One name -/

/-- The module that is offered comes from the first shelf that has one. -/
theorem of_offer? {name : String} {shelves after : List Shelf} {module : String} {o : Object}
    (h : offer? name shelves = some (module, o, after)) :
    ∃ place shelf index, shelves[place]? = some shelf ∧ (∀ s ∈ shelves.take place, s.provider? name = none)
      ∧ shelf.provider? name = some index ∧ shelf.library.objects[index]? = some o
      ∧ module = shelf.moduleName index ∧ after = shelves.set place (shelf.without index) := by
  induction shelves generalizing after with
  | nil => cases h
  | cons s rest ih =>
    unfold offer? at h
    cases offered : s.provider? name with
    | some index =>
      rw [offered] at h
      dsimp only at h
      cases taken : s.take? index with
      | none => rw [taken] at h; cases h
      | some pair =>
        rw [taken] at h
        cases h
        obtain ⟨object, without⟩ := Shelf.of_take? taken
        refine ⟨0, s, index, rfl, fun _ none => (List.not_mem_nil none).elim, offered, object, rfl, ?_⟩
        rw [without]
        rfl
    | none =>
      rw [offered] at h
      obtain ⟨⟨module', o', after'⟩, later, same⟩ := Option.map_eq_some_iff.1 h
      cases same
      obtain ⟨place, shelf, index, found, first, others⟩ := ih later
      refine ⟨place + 1, shelf, index, found, ?_, others.1, others.2.1, others.2.2.1, ?_⟩
      · rw [List.take_succ_cons, List.forall_mem_cons]
        exact ⟨offered, first⟩
      · rw [List.set_cons_succ, ← others.2.2.2]

/-- If nothing is offered for a name, no shelf provides it, since an index leads to modules that exist. -/
theorem provider?_of_offer?_eq_none {name : String} {shelves : List Shelf} (indexed : ∀ s ∈ shelves, s.Indexed)
    (h : offer? name shelves = none) : ∀ s ∈ shelves, s.provider? name = none := by
  induction shelves with
  | nil => exact fun _ none => (List.not_mem_nil none).elim
  | cons s rest ih =>
    unfold offer? at h
    cases offered : s.provider? name with
    | some index =>
      obtain ⟨o, taken⟩ := (indexed s (List.mem_cons_self ..)).exists_take? offered
      rw [offered] at h
      dsimp only at h
      rw [taken] at h
      cases h
    | none =>
      rw [offered] at h
      rw [List.forall_mem_cons]
      exact ⟨offered, ih (fun t mem => indexed t (List.mem_cons_of_mem _ mem)) (Option.map_eq_none_iff.1 h)⟩

/-- What pulling for a name does. -/
theorem pull_cases (l : Linker) (name : String) :
    (∃ p, p.name = name ∧ l.Pulls p (l.pull name).1 ∧ (l.pull name).2 = true)
      ∨ (l.pull name = (l, false)
        ∧ (name ∈ l.wanted → (∀ s ∈ l.shelves, s.Indexed) → ∀ s ∈ l.shelves, s.provider? name = none)) := by
  unfold pull
  split
  · rename_i module wanted
    split
    · rename_i offered
      obtain ⟨place, shelf, index, found, first, provider, object, rfl, rfl⟩ := of_offer? offered
      exact .inl ⟨⟨name, place, shelf, index, _⟩, rfl, ⟨⟨module, wanted⟩, found, first, provider, object, rfl⟩, rfl⟩
    · rename_i refused
      exact .inr ⟨rfl, fun _ indexed => provider?_of_offer?_eq_none indexed refused⟩
  · rename_i other
    refine .inr ⟨rfl, fun mem => ?_⟩
    obtain ⟨module, found⟩ := mem_wanted.1 mem
    exact (other module found).elim

/-! ### One round -/

theorem foldl_pull (l : Linker) (any : Bool) (names : List String) :
    names.foldl (fun (l, any) name => let (l, one) := l.pull name; (l, any || one)) (l, any) =
      ((l.pullEach names).1, any || (l.pullEach names).2) := by
  induction names generalizing l any with
  | nil => simp [pullEach]
  | cons name rest ih =>
    unfold pullEach
    rw [List.foldl_cons, List.foldl_cons, ih, ih, Bool.false_or, Bool.or_assoc]

theorem pullEach_cons (l : Linker) (name : String) (rest : List String) :
    l.pullEach (name :: rest) =
      (((l.pull name).1.pullEach rest).1, (l.pull name).2 || ((l.pull name).1.pullEach rest).2) := by
  rw [pullEach, List.foldl_cons, foldl_pull, Bool.false_or]

/-- A round is a list of pulls, and it says whether there were any. If there were none, no name of the round could
have been served. -/
theorem pullEach_cases (l : Linker) (names : List String) :
    (∃ p ps, PullsAll l (p :: ps) (l.pullEach names).1 ∧ (l.pullEach names).2 = true)
      ∨ (l.pullEach names = (l, false)
        ∧ ∀ name ∈ names, name ∈ l.wanted → (∀ s ∈ l.shelves, s.Indexed) → ∀ s ∈ l.shelves, s.provider? name = none) := by
  induction names generalizing l with
  | nil => exact .inr ⟨rfl, fun _ none => (List.not_mem_nil none).elim⟩
  | cons name rest ih =>
    rw [pullEach_cons]
    rcases l.pull_cases name with ⟨p, -, pulls, one⟩ | ⟨idle, unserved⟩
    · refine .inl ?_
      rw [one, Bool.true_or]
      rcases ih (l.pull name).1 with ⟨q, qs, others, -⟩ | ⟨others, -⟩
      · exact ⟨p, q :: qs, .cons pulls others, rfl⟩
      · rw [others]
        exact ⟨p, [], .cons pulls (.nil _), rfl⟩
    · rw [idle, Bool.false_or]
      rcases ih l with ⟨q, qs, others, one⟩ | ⟨others, unservedRest⟩
      · exact .inl ⟨q, qs, others, one⟩
      · rw [others]
        exact .inr ⟨rfl, List.forall_mem_cons.2 ⟨unserved, unservedRest⟩⟩

/-! ### The shelves -/

/-- A module has been taken from its shelf. -/
def Taken (l : Linker) (place index : Nat) : Prop := ∃ s, l.shelves[place]? = some s ∧ s.taken[index]? = some true

theorem foldl_left_succ (shelves : List Shelf) (n : Nat) :
    shelves.foldl (fun n shelf => n + shelf.left) (n + 1) = shelves.foldl (fun n shelf => n + shelf.left) n + 1 := by
  induction shelves generalizing n with
  | nil => rfl
  | cons s rest ih => rw [List.foldl_cons, List.foldl_cons, Nat.add_right_comm, ih]

theorem foldl_left_set {shelves : List Shelf} {place : Nat} {s t : Shelf} (found : shelves[place]? = some s)
    (less : s.left = t.left + 1) (n : Nat) :
    shelves.foldl (fun n shelf => n + shelf.left) n =
      (shelves.set place t).foldl (fun n shelf => n + shelf.left) n + 1 := by
  induction shelves generalizing place n with
  | nil => cases found
  | cons head rest ih =>
    cases place with
    | zero =>
      cases found
      rw [List.set_cons_zero, List.foldl_cons, List.foldl_cons, less, ← Nat.add_assoc, foldl_left_succ]
    | succ place => exact ih found (n + head.left)

namespace Pulls

variable {l l' : Linker} {p : Pull} (pulls : l.Pulls p l')

include pulls

theorem shelves_eq : l'.shelves = l.shelves.set p.place (p.shelf.without p.index) := by
  rw [pulls.loaded]
  exact (enters_addObject _ p.named).shelves

theorem place_lt : p.place < l.shelves.length := (List.getElem?_eq_some_iff.1 pulls.shelf).1

theorem indexed (h : ∀ s ∈ l.shelves, s.Indexed) : ∀ s ∈ l'.shelves, s.Indexed := by
  intro s mem
  rw [pulls.shelves_eq] at mem
  rcases List.mem_or_eq_of_mem_set mem with old | rfl
  · exact h s old
  · exact (h p.shelf (List.mem_of_getElem? pulls.shelf)).without p.index

theorem taken_self : l'.Taken p.place p.index := by
  obtain ⟨bound, -⟩ := Array.getElem?_eq_some_iff.1 (Shelf.of_provider? pulls.offered)
  refine ⟨p.shelf.without p.index, ?_, ?_⟩
  · rw [pulls.shelves_eq, List.getElem?_set_self pulls.place_lt]
  · exact Array.getElem?_setIfInBounds_self_of_lt bound

theorem taken_of_taken {place index : Nat} (h : l.Taken place index) : l'.Taken place index := by
  obtain ⟨s, found, taken⟩ := h
  by_cases same : p.place = place
  · obtain rfl := same
    obtain rfl := Option.some.inj (pulls.shelf.symm.trans found)
    refine ⟨p.shelf.without p.index, by rw [pulls.shelves_eq, List.getElem?_set_self pulls.place_lt], ?_⟩
    unfold Shelf.without
    rw [Array.getElem?_setIfInBounds]
    split
    · rename_i same
      obtain ⟨bound, -⟩ := Array.getElem?_eq_some_iff.1 taken
      rw [if_pos (same ▸ bound)]
    · exact taken
  · exact ⟨s, by rw [pulls.shelves_eq, List.getElem?_set_ne same, found], taken⟩

theorem not_taken : ¬ l.Taken p.place p.index := by
  rintro ⟨s, found, taken⟩
  obtain rfl := Option.some.inj (pulls.shelf.symm.trans found)
  rw [Shelf.of_provider? pulls.offered] at taken
  cases taken

theorem modulesLeft_eq : l.modulesLeft = l'.modulesLeft + 1 := by
  unfold modulesLeft
  rw [pulls.shelves_eq]
  exact foldl_left_set pulls.shelf (Shelf.left_without (Shelf.of_provider? pulls.offered)) 0

end Pulls

namespace PullsAll

variable {l r : Linker} {ps : List Pull}

theorem indexed (pulls : PullsAll l ps r) (h : ∀ s ∈ l.shelves, s.Indexed) : ∀ s ∈ r.shelves, s.Indexed := by
  induction pulls with
  | nil => exact h
  | cons one _ ih => exact ih (one.indexed h)

theorem not_taken (pulls : PullsAll l ps r) : ∀ p ∈ ps, ¬ l.Taken p.place p.index := by
  induction pulls with
  | nil => exact fun _ none => (List.not_mem_nil none).elim
  | cons one _ ih =>
    rw [List.forall_mem_cons]
    exact ⟨one.not_taken, fun q mem taken => ih q mem (one.taken_of_taken taken)⟩

/-- No module is loaded twice. -/
theorem nodup (pulls : PullsAll l ps r) : (ps.map fun p => (p.place, p.index)).Nodup := by
  induction pulls with
  | nil => exact List.nodup_nil
  | @cons l m r p ps one rest ih =>
    rw [List.map_cons, List.nodup_cons]
    refine ⟨fun again => ?_, ih⟩
    obtain ⟨q, mem, same⟩ := List.mem_map.1 again
    obtain ⟨place, index⟩ := Prod.mk.inj same
    refine rest.not_taken q mem ?_
    rw [place, index]
    exact one.taken_self

/-- What is pulled comes from the libraries. -/
theorem mem_objects (pulls : PullsAll l ps r) : ∀ p ∈ ps, ∃ s ∈ l.shelves, p.object ∈ s.library.objects := by
  induction pulls with
  | nil => exact fun _ none => (List.not_mem_nil none).elim
  | @cons l m r p ps one _ ih =>
    have own := List.mem_of_getElem? one.shelf
    rw [List.forall_mem_cons]
    refine ⟨⟨p.shelf, own, Array.mem_of_getElem? one.object⟩, fun q mem => ?_⟩
    obtain ⟨s, onShelf, found⟩ := ih q mem
    rw [one.shelves_eq] at onShelf
    rcases List.mem_or_eq_of_mem_set onShelf with old | rfl
    · exact ⟨s, old, found⟩
    · exact ⟨p.shelf, own, found⟩

/-- The modules are loaded as others are. -/
theorem adds (pulls : PullsAll l ps r) : Adds l (ps.map Pull.named) r := by
  induction pulls with
  | nil => exact .nil _
  | cons one _ ih =>
    rw [one.loaded] at ih
    exact .shelve _ _ (.load ih)

theorem modulesLeft_eq (pulls : PullsAll l ps r) : l.modulesLeft = r.modulesLeft + ps.length := by
  induction pulls with
  | nil => rfl
  | cons one _ ih => rw [one.modulesLeft_eq, ih, List.length_cons, Nat.add_assoc]

end PullsAll

/-! ### All rounds -/

namespace Rounds

variable {l r : Linker}

theorem exists_pulls (rounds : Rounds l r) : ∃ ps, PullsAll l ps r := by
  induction rounds with
  | @stop l m idle =>
    rcases l.pullEach_cases l.wanted with ⟨_, _, -, busy⟩ | ⟨nothing, -⟩
    · rw [idle] at busy
      cases busy
    · obtain rfl : l = m := congrArg Prod.fst (nothing.symm.trans idle)
      exact ⟨[], .nil l⟩
  | @again l m r busy _ ih =>
    obtain ⟨ps, rest⟩ := ih
    rcases l.pullEach_cases l.wanted with ⟨p, qs, pulls, -⟩ | ⟨nothing, -⟩
    · rw [busy] at pulls
      exact ⟨p :: qs ++ ps, pulls.append rest⟩
    · cases busy.symm.trans nothing

/-- The last round found nothing, so there is nothing to be found. -/
theorem provider?_eq_none (rounds : Rounds l r) (indexed : ∀ s ∈ r.shelves, s.Indexed) {name : String}
    (wanted : name ∈ r.wanted) : ∀ s ∈ r.shelves, s.provider? name = none := by
  induction rounds with
  | @stop l m idle =>
    rcases l.pullEach_cases l.wanted with ⟨_, _, -, busy⟩ | ⟨nothing, unserved⟩
    · rw [idle] at busy
      cases busy
    · obtain rfl : l = m := congrArg Prod.fst (nothing.symm.trans idle)
      exact unserved name wanted wanted indexed
  | again _ _ ih => exact ih indexed wanted

end Rounds

/-- With more rounds allowed than modules are left, the loop ends by itself. -/
theorem rounds_pullRounds {n : Nat} {l : Linker} (enough : l.modulesLeft < n) : Rounds l (pullRounds n l) := by
  induction n generalizing l with
  | zero => exact (Nat.not_lt_zero _ enough).elim
  | succ n ih =>
    unfold pullRounds
    split
    · rename_i m busy
      refine .again busy (ih ?_)
      rcases l.pullEach_cases l.wanted with ⟨p, ps, pulls, -⟩ | ⟨nothing, -⟩
      · rw [busy] at pulls
        have fewer : l.modulesLeft = m.modulesLeft + (p :: ps).length := pulls.modulesLeft_eq
        rw [List.length_cons] at fewer
        omega
      · cases busy.symm.trans nothing
    · rename_i m idle
      exact .stop idle

theorem rounds_pullAll (l : Linker) : Rounds l l.pullAll := rounds_pullRounds (Nat.lt_succ_self _)

/-- The search of the libraries ends. It loads no module twice, and each for a name that was wanted when it was
loaded, from the first shelf that offered one. When it ends, no shelf offers a module for a name still wanted. -/
theorem pullAll_exhausts {l : Linker} (indexed : ∀ s ∈ l.shelves, s.Indexed) :
    Rounds l l.pullAll
      ∧ (∃ pulls, PullsAll l pulls l.pullAll ∧ (pulls.map fun p => (p.place, p.index)).Nodup)
      ∧ ∀ name module, l.pullAll.globals[name]? = some (.wanted module) →
          ∀ s ∈ l.pullAll.shelves, s.provider? name = none := by
  have rounds := l.rounds_pullAll
  obtain ⟨pulls, all⟩ := rounds.exists_pulls
  refine ⟨rounds, ⟨pulls, all, all.nodup⟩, fun name module wanted => ?_⟩
  exact rounds.provider?_eq_none (all.indexed indexed) (mem_wanted.2 ⟨module, wanted⟩)

/-- A module that asks for `name`. -/
def asking (name : String) : Object :=
  ({} : Object).addSymbol { id := 1, name, address := .external 1 }

/-- A library whose first module asks for `c` although the index has it for `a` and `b`; the second defines `c`. -/
def misindexed : Library :=
  { objects := #[asking "c", ({} : Object).addSymbol { id := 1, name := "c", address := .constant 7, isPublic := true }]
    index := (∅ : Std.ExtTreeMap String UInt16 compare) |>.insert "a" 0 |>.insert "b" 0 |>.insert "c" 1 }

/-- The first module is loaded for `a`, once, and the second for `c`. Nobody defines `a`, and the search still
ends. -/
theorem pullAll_exhausts_misindexed :
    let l := (({ bases := .const 0 } : Linker).addObject "main" (asking "a")).addLibrary "lib" misindexed
    Rounds l l.pullAll ∧ l.pullAll.modules = #["main", "lib[0]", "lib[1]"]
      ∧ l.pullAll.globals["a"]? = some (.wanted "main")
      ∧ ∀ s ∈ l.pullAll.shelves, s.provider? "a" = none := by
  intro l
  have indexed : ∀ s ∈ l.shelves, s.Indexed := by
    rintro s (_ | ⟨_, ⟨⟩⟩)
    refine Shelf.indexed_ofLibrary fun {name i} found => ?_
    have entries : ∀ e ∈ misindexed.index.toList, e.2.toNat < misindexed.objects.size := by decide +kernel
    exact entries (name, i) (Std.ExtTreeMap.mem_toList_iff_getElem?_eq_some.2 found)
  obtain ⟨rounds, -, unserved⟩ := pullAll_exhausts indexed
  have wanted : l.pullAll.globals["a"]? = some (.wanted "main") := by decide +kernel
  exact ⟨rounds, by decide +kernel, wanted, unserved "a" "main" wanted⟩

end Linker

end Asm65
