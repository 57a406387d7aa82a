import Asm65.Proofs.DirectLink

/-!
# The order in which modules are given

Which library modules a link pulls, which names it leaves open and which it finds defined twice does not depend on the
order in which its modules were given. Two linkers that know the same names as defined and the same as wanted pull the
same module for the same name, and stay alike.
-/

namespace Asm65
set_option autoImplicit false

namespace Linker

/-! ### Linkers that differ in who defines and who asks -/

/-- The same libraries, the same names with a value and the same names wanted. -/
structure Alike (l l' : Linker) : Prop where
  shelves : l.shelves = l'.shelves
  names (n : String) : l.globals[n]?.map Global.isWanted = l'.globals[n]?.map Global.isWanted

section

variable {l l' : Linker}

theorem mem_wanted_iff_map {n : String} : n ∈ l.wanted ↔ l.globals[n]?.map Global.isWanted = some true := by
  rw [mem_wanted, Option.map_eq_some_iff]
  constructor
  · rintro ⟨who, found⟩
    exact ⟨_, found, rfl⟩
  · rintro ⟨g, found, wanted⟩
    cases g with
    | wanted who => exact ⟨who, found⟩
    | defined => cases wanted

theorem defines_iff_map {n : String} : Defines l.globals n ↔ l.globals[n]?.map Global.isWanted = some false := by
  rw [Option.map_eq_some_iff]
  constructor
  · rintro ⟨value, space, module, found⟩
    exact ⟨_, found, rfl⟩
  · rintro ⟨g, found, defined⟩
    cases g with
    | wanted => cases defined
    | defined value space module => exact ⟨value, space, module, found⟩

/-- What a module makes of a name depends on whether the name was wanted, had a value or was unknown. -/
theorem map_isWanted_enter {bases bases' : Bases} {m m' : Placed} (object : m.object = m'.object)
    {globals globals' : Std.ExtTreeMap String Global compare} {n : String}
    (same : globals[n]?.map Global.isWanted = globals'[n]?.map Global.isWanted) :
    (enter bases m globals)[n]?.map Global.isWanted = (enter bases' m' globals')[n]?.map Global.isWanted := by
  rw [getElem?_enter, getElem?_enter, object]
  cases known : globals[n]? with
  | none =>
    cases known' : globals'[n]? with
    | none =>
      cases m'.object.publics.find? fun s : Symbol => s.name == n with
      | some => rfl
      | none => cases m'.object.externals.find? fun s : Symbol => s.name == n <;> rfl
    | some g' =>
      rw [known, known'] at same
      cases same
  | some g =>
    cases known' : globals'[n]? with
    | none =>
      rw [known, known'] at same
      cases same
    | some g' =>
      rw [known, known'] at same
      cases g with
      | defined =>
        cases g' with
        | defined => rfl
        | wanted => cases same
      | wanted =>
        cases g' with
        | defined => cases same
        | wanted => cases m'.object.publics.find? fun s : Symbol => s.name == n <;> rfl

theorem Alike.addObject (alike : l.Alike l') (m : NamedObject) :
    (l.addObject m.name m.object).Alike (l'.addObject m.name m.object) := by
  have entered := l.enters_addObject m
  have entered' := l'.enters_addObject m
  refine ⟨?_, fun n => ?_⟩
  · rw [entered.shelves, entered'.shelves, alike.shelves]
  · rw [entered.globals, entered'.globals]
    refine map_isWanted_enter ?_ (alike.names n)
    rfl

theorem pairwise_wanted (l : Linker) : l.wanted.Pairwise fun a b => compare a b = .lt := by
  unfold wanted
  exact List.pairwise_map.2 (Std.ExtTreeMap.ordered_keys_toList.filter _)

/-- The names are gone through in the same order. -/
theorem Alike.wanted_eq (alike : l.Alike l') : l.wanted = l'.wanted := by
  have nodup (l : Linker) : l.wanted.Nodup := l.pairwise_wanted.imp fun {a b} less same => by
    rw [same, (Std.ReflCmp.compare_self : compare b b = .eq)] at less
    cases less
  have perm : l.wanted.Perm l'.wanted := (List.perm_ext_iff_of_nodup (nodup l) (nodup l')).2 fun n => by
    rw [mem_wanted_iff_map, mem_wanted_iff_map, alike.names]
  refine perm.eq_of_pairwise (fun a b _ _ less more => ?_) l.pairwise_wanted l'.pairwise_wanted
  rw [(Std.OrientedCmp.eq_swap : compare a b = (compare b a).swap), more] at less
  cases less

/-! ### Pulling side by side -/

/-- One name: the same module, or none. -/
theorem Alike.pull (alike : l.Alike l') (name : String) :
    ((l.pull name).1.Alike (l'.pull name).1 ∧ (l.pull name).2 = (l'.pull name).2)
      ∧ ∃ ps, PullsAll l ps (l.pull name).1 ∧ PullsAll l' ps (l'.pull name).1 := by
  have names := alike.names name
  unfold Linker.pull
  rw [← alike.shelves]
  cases known : l.globals[name]? with
  | none =>
    cases known' : l'.globals[name]? with
    | none => exact ⟨⟨alike, rfl⟩, [], .nil l, .nil l'⟩
    | some => rw [known, known'] at names; cases names
  | some g =>
    cases known' : l'.globals[name]? with
    | none => rw [known, known'] at names; cases names
    | some g' =>
      rw [known, known'] at names
      cases g with
      | defined =>
        cases g' with
        | wanted => cases names
        | defined => exact ⟨⟨alike, rfl⟩, [], .nil l, .nil l'⟩
      | wanted who =>
        cases g' with
        | defined => cases names
        | wanted who' =>
          dsimp only
          cases offered : offer? name l.shelves with
          | none => exact ⟨⟨alike, rfl⟩, [], .nil l, .nil l'⟩
          | some found =>
            obtain ⟨module, o, shelves⟩ := found
            dsimp only
            have next : Alike (({ l with shelves } : Linker).log (.resolves module name))
              (({ l' with shelves } : Linker).log (.resolves module name)) := ⟨rfl, alike.names⟩
            refine ⟨⟨next.addObject ⟨module, o⟩, rfl⟩, ?_⟩
            obtain ⟨place, shelf, index, placed, first, provider, object, rfl, rfl⟩ := of_offer? offered
            refine ⟨[⟨name, place, shelf, index, o⟩], .cons ?_ (.nil _), .cons ?_ (.nil _)⟩
            · exact ⟨⟨who, known⟩, placed, first, provider, object, rfl⟩
            · rw [alike.shelves] at placed first ⊢
              exact ⟨⟨who', known'⟩, placed, first, provider, object, rfl⟩

/-- One round. -/
theorem Alike.pullEach (alike : l.Alike l') (names : List String) :
    ((l.pullEach names).1.Alike (l'.pullEach names).1 ∧ (l.pullEach names).2 = (l'.pullEach names).2)
      ∧ ∃ ps, PullsAll l ps (l.pullEach names).1 ∧ PullsAll l' ps (l'.pullEach names).1 := by
  induction names generalizing l l' with
  | nil => exact ⟨⟨alike, rfl⟩, [], .nil l, .nil l'⟩
  | cons name rest ih =>
    obtain ⟨⟨next, one⟩, ps, pulls, pulls'⟩ := alike.pull name
    obtain ⟨⟨last, others⟩, qs, later, later'⟩ := ih next
    rw [pullEach_cons, pullEach_cons, one, others]
    exact ⟨⟨last, rfl⟩, ps ++ qs, pulls.append later, pulls'.append later'⟩

/-- Linkers that agree on libraries and names pull the same modules in the same order, and agree after it. -/
theorem Alike.pullRounds (alike : l.Alike l') (n : Nat) :
    (pullRounds n l).Alike (pullRounds n l')
      ∧ ∃ ps, PullsAll l ps (pullRounds n l) ∧ PullsAll l' ps (pullRounds n l') := by
  induction n generalizing l l' with
  | zero => exact ⟨alike, [], .nil l, .nil l'⟩
  | succ n ih =>
    obtain ⟨⟨next, same⟩, ps, pulls, pulls'⟩ := alike.pullEach l.wanted
    unfold Linker.pullRounds
    rw [← alike.wanted_eq]
    generalize l.pullEach l.wanted = round, l'.pullEach l.wanted = round' at next same pulls pulls'
    obtain ⟨r, busy⟩ := round
    obtain ⟨r', busy'⟩ := round'
    obtain rfl : busy = busy' := same
    cases busy with
    | false => exact ⟨next, ps, pulls, pulls'⟩
    | true =>
      obtain ⟨last, qs, later, later'⟩ := ih next
      exact ⟨last, ps ++ qs, pulls.append later, pulls'.append later'⟩

/-- The whole search. -/
theorem Alike.pullAll (alike : l.Alike l') :
    l.pullAll.Alike l'.pullAll ∧ ∃ ps, PullsAll l ps l.pullAll ∧ PullsAll l' ps l'.pullAll := by
  have left : l.modulesLeft = l'.modulesLeft := by rw [modulesLeft, alike.shelves, modulesLeft]
  unfold Linker.pullAll
  rw [← left]
  exact alike.pullRounds _

/-- The same modules in another order. -/
theorem Collects.alike {bases : Bases} {ms ms' : List NamedObject} (collects : Collects bases ms l)
    (collects' : Collects bases ms' l') (perm : ms.Perm ms') (shelves : l.shelves = l'.shelves) : l.Alike l' := by
  refine ⟨shelves, fun n => Option.ext fun wanted => ?_⟩
  cases wanted with
  | true =>
    rw [← mem_wanted_iff_map, ← mem_wanted_iff_map, collects.mem_wanted_iff_asked, collects'.mem_wanted_iff_asked]
    simp only [perm.mem_iff]
  | false =>
    rw [← defines_iff_map, ← defines_iff_map, collects.defines_iff, collects'.defines_iff]
    simp only [perm.mem_iff]

end

end Linker

/-! ### Names that are defined again -/

/-- The name, if the error is that it is defined again. -/
def Cause.redefined? : Cause → Option String
  | .definedTwice name _ _ => some name
  | _ => none

theorem Cause.redefined?_eq_none {c : Cause} (other : c.category.isAboutNames = false) : c.redefined? = none := by
  unfold redefined?
  split
  · cases other
  · rfl

namespace Linker

/-- Whether a name has a value. -/
def isDefined (globals : Std.ExtTreeMap String Global compare) (n : String) : Bool := globals[n]?.any (!·.isWanted)

theorem isDefined_iff {globals : Std.ExtTreeMap String Global compare} {n : String} :
    isDefined globals n = true ↔ Defines globals n := by
  unfold isDefined Defines
  rw [Option.any_eq_true]
  constructor
  · rintro ⟨g, found, defined⟩
    cases g with
    | wanted => cases defined
    | defined value space module => exact ⟨value, space, module, found⟩
  · rintro ⟨value, space, module, found⟩
    exact ⟨_, found, rfl⟩

/-- The names that a module defines although they have a value when their turn comes. -/
def again (bases : Bases) (m : Placed) (globals : Std.ExtTreeMap String Global compare) : List Symbol → List String
  | [] => []
  | s :: rest =>
    (if isDefined globals s.name then [s.name] else [])
      ++ again bases m
        (defining globals s.name (.defined (relocate bases m.offsets s.address) s.address.space? m.name)) rest

/-- The names that modules define again while they are loaded one after another. -/
def redefined (l : Linker) : List NamedObject → List String
  | [] => []
  | m :: rest =>
    again l.bases ⟨m, l.segments.map Segment.size⟩ l.globals m.object.publics
      ++ redefined (l.addObject m.name m.object) rest

/-- Of the definitions of a name all but the first come too late. -/
theorem count_again (bases : Bases) (m : Placed) (globals : Std.ExtTreeMap String Global compare)
    (symbols : List Symbol) (n : String) : (again bases m globals symbols).count n =
      (symbols.map (·.name)).count n - if isDefined globals n then 0 else 1 := by
  induction symbols generalizing globals with
  | nil => rw [again, List.map_nil, List.count_nil, Nat.zero_sub]
  | cons s rest ih =>
    rw [again, List.count_append, ih, List.map_cons, List.count_cons]
    have next : isDefined
        (defining globals s.name (.defined (relocate bases m.offsets s.address) s.address.space? m.name)) n =
          (n == s.name || isDefined globals n) := by
      rw [Bool.eq_iff_iff, isDefined_iff, defines_defining, Bool.or_eq_true, isDefined_iff, beq_iff_eq]
    rw [next]
    by_cases same : s.name = n
    · subst same
      cases isDefined globals s.name <;> simp [Nat.add_comm]
    · have other : (n == s.name) = false := by simpa using fun h => same h.symm
      cases isDefined globals s.name <;> simp [same, other]

/-- The names that modules define for others. -/
def exports (ms : List NamedObject) : List String := (ms.flatMap fun m => m.object.publics).map (·.name)

theorem mem_exports {ms : List NamedObject} {n : String} :
    n ∈ exports ms ↔ ∃ m ∈ ms, ∃ s ∈ m.object.publics, s.name = n := by
  simp only [exports, List.mem_map, List.mem_flatMap]
  constructor
  · rintro ⟨s, ⟨m, loaded, mem⟩, name⟩
    exact ⟨m, loaded, s, mem, name⟩
  · rintro ⟨m, loaded, s, mem, name⟩
    exact ⟨s, ⟨m, loaded, mem⟩, name⟩

theorem exports_append (ms ns : List NamedObject) : exports (ms ++ ns) = exports ms ++ exports ns := by
  simp [exports]

theorem count_exports_cons (m : NamedObject) (ms : List NamedObject) (n : String) :
    (exports (m :: ms)).count n = (m.object.publics.map (·.name)).count n + (exports ms).count n := by
  simp [exports]

section

variable {bases : Bases} {ms : List NamedObject} {l : Linker} (collects : Collects bases ms l)

include collects

theorem Collects.isDefined_eq (n : String) : isDefined l.globals n = decide (n ∈ exports ms) := by
  rw [Bool.eq_iff_iff, isDefined_iff, collects.defines_iff, decide_eq_true_eq, mem_exports]

/-- A name is defined again once for each definition, except for the first if no module before has one. -/
theorem Collects.count_redefined (ns : List NamedObject) (n : String) :
    (redefined l ns).count n = (exports ns).count n - if n ∈ exports ms then 0 else 1 := by
  induction ns generalizing ms l with
  | nil => rw [redefined, exports, List.flatMap_nil, List.map_nil, List.count_nil, Nat.zero_sub]
  | cons m rest ih =>
    rw [redefined, List.count_append, count_again, ih (collects.load (l.enters_addObject m)), collects.isDefined_eq,
      count_exports_cons, exports_append]
    have own : n ∈ exports [m] ↔ 0 < (m.object.publics.map (·.name)).count n := by
      rw [List.count_pos_iff, mem_exports]
      simp
    by_cases before : n ∈ exports ms
    · simp [before]
    · by_cases here : n ∈ exports [m]
      · have some := own.1 here
        simp [before, here]
        omega
      · have none : (m.object.publics.map (·.name)).count n = 0 := Nat.eq_zero_of_not_pos fun h => here (own.2 h)
        simp [before, here, none]

end

/-- The order does not matter for which names are defined again, and how often. -/
theorem perm_redefined (bases : Bases) {ms ms' : List NamedObject} (perm : ms.Perm ms') :
    (redefined { bases } ms).Perm (redefined { bases } ms') := by
  have exported : (exports ms).Perm (exports ms') := (perm.flatMap_right _).map _
  refine List.perm_iff_count.2 fun n => ?_
  rw [(Collects.start bases).count_redefined, (Collects.start bases).count_redefined, exported.count_eq]

/-! ### What is recorded about them -/

section

variable {l l' : Linker}

theorem records_define (l : Linker) (name : String) (value : UInt16) (space : Option Space) (module : String) :
    ∃ causes, (l.define name value space module).diagnostics = l.diagnostics.recordAll causes
      ∧ causes.filterMap Cause.redefined? = if isDefined l.globals name then [name] else [] := by
  unfold define isDefined
  cases l.globals[name]? with
  | none => exact ⟨[], rfl, rfl⟩
  | some g =>
    cases g with
    | wanted => exact ⟨[], rfl, rfl⟩
    | defined _ _ first => exact ⟨[.definedTwice name first module], rfl, rfl⟩

/-- Defining symbols one after another reports those as defined again that have a value when their turn comes. -/
theorem records_foldl_define (m : Placed) (l : Linker) (symbols : List Symbol) :
    ∃ causes, (symbols.foldl (fun l s =>
        l.define s.name (relocate l.bases m.offsets s.address) s.address.space? m.name) l).diagnostics =
          l.diagnostics.recordAll causes
      ∧ causes.filterMap Cause.redefined? = again l.bases m l.globals symbols := by
  induction symbols generalizing l with
  | nil => exact ⟨[], rfl, rfl⟩
  | cons s rest ih =>
    obtain ⟨causes, first, name⟩ :=
      l.records_define s.name (relocate l.bases m.offsets s.address) s.address.space? m.name
    obtain ⟨causes', others, names⟩ :=
      ih (l.define s.name (relocate l.bases m.offsets s.address) s.address.space? m.name)
    obtain ⟨_, defined, -⟩ := l.define_eq s.name (relocate l.bases m.offsets s.address) s.address.space? m.name
    refine ⟨causes ++ causes', ?_, ?_⟩
    · rw [List.foldl_cons, others, first, Diagnostics.recordAll_append]
    · rw [List.filterMap_append, name, names, again, defined]

/-- Loading a module reports as defined again those of its public symbols that have a value when their turn comes. -/
theorem records_addObject (l : Linker) (m : NamedObject) :
    ∃ causes, (l.addObject m.name m.object).diagnostics = l.diagnostics.recordAll causes
      ∧ causes.filterMap Cause.redefined? =
          again l.bases ⟨m, l.segments.map Segment.size⟩ l.globals m.object.publics := by
  have used : Reworks _ (l.addObject m.name m.object) := .foldl
    (fun l' (use : Address × Address) => reworks_applyUse m.object m.name (l.segments.map Segment.size) l' use.1 use.2)
    _ m.object.uses.toList
  rw [foldl_want_eq] at used
  obtain ⟨causes, others, same⟩ := used.reports
  obtain ⟨causes', defined, names⟩ := records_foldl_define ⟨m, l.segments.map Segment.size⟩ _ m.object.publics
  refine ⟨causes' ++ causes, ?_, ?_⟩
  · rw [same, Diagnostics.recordAll_append]
    exact congrArg (Diagnostics.recordAll · causes) defined
  · have unrelated : causes.filterMap Cause.redefined? = [] :=
      List.filterMap_eq_nil_iff.2 fun c mem => Cause.redefined?_eq_none (others c mem)
    rw [List.filterMap_append, unrelated, List.append_nil]
    exact names

theorem redefined_congr (same : l.bare = l'.bare) (ms : List NamedObject) : redefined l ms = redefined l' ms := by
  induction ms generalizing l l' with
  | nil => rfl
  | cons m rest ih =>
    have bases : l.bases = l'.bases := show l.bare.bases = l'.bare.bases by rw [same]
    have segments : l.segments = l'.segments := show l.bare.segments = l'.bare.segments by rw [same]
    have globals : l.globals = l'.globals := show l.bare.globals = l'.bare.globals by rw [same]
    have next : (l.addObject m.name m.object).bare = (l'.addObject m.name m.object).bare := by
      rw [bare_addObject, same, ← bare_addObject]
    rw [redefined, redefined, bases, segments, globals, ih next]

/-- While modules are loaded, the errors about double definitions are about the names that are defined again, in
order. -/
theorem Adds.records {ms : List NamedObject} (adds : Adds l ms l') :
    ∃ causes, l'.diagnostics = l.diagnostics.recordAll causes
      ∧ causes.filterMap Cause.redefined? = redefined l ms := by
  induction adds with
  | nil => exact ⟨[], rfl, rfl⟩
  | @shelve l r ms shelves journal _ ih =>
    obtain ⟨causes, recorded, names⟩ := ih
    refine ⟨causes, recorded, names.trans (redefined_congr ?_ ms)⟩
    rfl
  | @load l r m ms _ ih =>
    obtain ⟨causes, first, name⟩ := l.records_addObject m
    obtain ⟨causes', others, names⟩ := ih
    refine ⟨causes ++ causes', ?_, ?_⟩
    · rw [others, first, Diagnostics.recordAll_append]
    · rw [List.filterMap_append, name, names, redefined]

end

/-- What the link of `inputs` makes of names: it pulls `pulls`, leaves the names `wanted` open, and comes upon
definitions of the names `doubles` that have a value already; the errors of the latter kind are about these. -/
structure Finds (bases : Bases) (inputs : List Input) (pulls : List Pull) (wanted doubles : List String) : Prop where
  pulled : PullsAll (load bases inputs) pulls (load bases inputs).pullAll
  left : (load bases inputs).pullAll.wanted = wanted
  met : redefined { bases } (inputs.filterMap Input.module? ++ pulls.map Pull.named) = doubles
  reports : ∃ causes, (load bases inputs).pullAll.diagnostics = ({} : Diagnostics).recordAll causes
    ∧ causes.filterMap Cause.redefined? = doubles

theorem PullsAll.finds {bases : Bases} {inputs : List Input} {ps : List Pull}
    (pulls : PullsAll (load bases inputs) ps (load bases inputs).pullAll) :
    Finds bases inputs ps (load bases inputs).pullAll.wanted
      (redefined { bases } (inputs.filterMap Input.module? ++ ps.map Pull.named)) :=
  ⟨pulls, rfl, rfl, ((adds_foldl_add _ inputs).append pulls.adds).records⟩

/-- The order in which modules are given, and where libraries stand among them, does not matter for names. The same
library modules are pulled in the same order, the same names stay open, and the same names are defined again, equally
often. -/
theorem resolution_of_perm (bases : Bases) {inputs inputs' : List Input}
    (objects : (inputs.filterMap Input.module?).Perm (inputs'.filterMap Input.module?))
    (libraries : inputs.filterMap Input.shelf? = inputs'.filterMap Input.shelf?) :
    ∃ pulls wanted doubles doubles', Finds bases inputs pulls wanted doubles ∧ Finds bases inputs' pulls wanted doubles'
      ∧ doubles.Perm doubles' := by
  have collects (inputs : List Input) : Collects bases (inputs.filterMap Input.module?) (load bases inputs) :=
    (Collects.start bases).add (adds_foldl_add _ inputs)
  have shelves : (load bases inputs).shelves = (load bases inputs').shelves := by
    rw [load, shelves_foldl_add, libraries, ← shelves_foldl_add, load]
  obtain ⟨alike, ps, pulls, pulls'⟩ := ((collects inputs).alike (collects inputs') objects shelves).pullAll
  have finds' := pulls'.finds
  rw [← alike.wanted_eq] at finds'
  exact ⟨ps, _, _, _, pulls.finds, finds', perm_redefined bases (objects.append_right _)⟩

/-- Two modules that define the same name, one of which asks for a name that nobody defines. Whichever comes first, and
wherever the library stands, its three modules are pulled for the other. -/
theorem resolution_of_perm_doubled :
    let first := Input.object "first" (passing 0x20 "x" "a")
    let second := Input.object "second" (passing 0x20 "x" "u")
    let library := Input.library "lib" chain
    ∃ pulls doubles doubles', Finds (.const 0) [first, library, second] pulls ["u"] doubles
      ∧ Finds (.const 0) [second, first, library] pulls ["u"] doubles'
      ∧ pulls.map Pull.module = ["lib[2]", "lib[0]", "lib[1]"] ∧ doubles.Perm doubles' ∧ "x" ∈ doubles := by
  intro first second library
  have objects : ([first, library, second].filterMap Input.module?).Perm
    ([second, first, library].filterMap Input.module?) := .swap ..
  obtain ⟨pulls, wanted, doubles, doubles', finds, finds', perm⟩ := resolution_of_perm (.const 0) objects rfl
  have left : (load (.const 0) [first, library, second]).pullAll.wanted = ["u"] := by decide +kernel
  obtain rfl := finds.left.symm.trans left
  have collects := (Collects.start (.const 0)).add
    ((adds_foldl_add _ [first, library, second]).append finds.pulled.adds)
  have modules : (load (.const 0) [first, library, second]).pullAll.modules.toList =
      ["first", "second", "lib[2]", "lib[0]", "lib[1]"] := by decide +kernel
  refine ⟨pulls, doubles, doubles', finds, finds', ?_, perm, ?_⟩
  · have names := collects.modules.symm.trans modules
    rw [List.nil_append, List.map_append, List.map_map] at names
    exact (List.cons.inj (List.cons.inj names).2).2
  · have twice : ((passing 0x20 "x" "a").publics.map (·.name)).count "x" = 1
        ∧ ((passing 0x20 "x" "u").publics.map (·.name)).count "x" = 1 := by decide +kernel
    rw [← finds.met, ← List.count_pos_iff, (Collects.start _).count_redefined]
    show 0 < (exports (⟨"first", passing 0x20 "x" "a"⟩ :: ⟨"second", passing 0x20 "x" "u"⟩ :: _)).count "x" - _
    rw [count_exports_cons, count_exports_cons, twice.1, twice.2]
    split <;> omega

end Linker

end Asm65
