import Asm65.Proofs.Loading
import Mathlib.Data.List.Induction

/-!
# What names stand for

Modules are laid out one after another. A name that some of them define stands for the first definition, and one
that they only ask for is wanted by the first that asks. This is so after every module, whatever errors there were,
and the errors tell whether a name was defined again.
-/

namespace Asm65
set_option autoImplicit false

theorem PerSpace.map_congr {α β γ : Type} {f : α → γ} {g : β → γ} {p : PerSpace α} {q : PerSpace β}
    (h : ∀ s, f (p.get s) = g (q.get s)) : p.map f = q.map g := by
  simpa [map] using ⟨h .code, h .data, h .zeroPage⟩

/-- Whether the module asks for a name. -/
def NamedObject.asksFor (n : String) (m : NamedObject) : Bool := m.object.externals.any (·.name == n)

theorem NamedObject.asksFor_iff {n : String} {m : NamedObject} :
    m.asksFor n = true ↔ ∃ s ∈ m.object.externals, s.name = n := by
  simp [asksFor]

namespace Linker

/-- The segments of modules one after another. -/
def laidOut (ms : List NamedObject) : PerSpace Segment :=
  ms.foldl (fun segments m => segments.zipWith (fun s t => s.append t.bytes) m.object.segments) (.const .empty)

/-- Modules with the offsets of their segments, if the first starts at `offsets`. -/
def place (offsets : PerSpace Nat) : List NamedObject → List Placed
  | [] => []
  | m :: rest => ⟨m, offsets⟩ :: place (offsets.zipWith (fun n s => n + s.size) m.object.segments) rest

/-- The modules of a link. -/
def placed (ms : List NamedObject) : List Placed := place (.const 0) ms

/-! ### Where modules lie -/

theorem le_offsets_of_mem_place {offsets : PerSpace Nat} {ms : List NamedObject} {m : Placed} (h : m ∈ place offsets ms)
    (s : Space) : offsets.get s ≤ m.offsets.get s := by
  induction ms generalizing offsets with
  | nil => cases h
  | cons first rest ih =>
    rcases List.mem_cons.1 h with rfl | later
    · exact Nat.le_refl _
    · have after := ih later
      rw [PerSpace.get_zipWith] at after
      omega

/-- Two modules that share a byte are the same. -/
theorem eq_of_mem_place {offsets : PerSpace Nat} {ms : List NamedObject} {m m' : Placed} (h : m ∈ place offsets ms)
    (h' : m' ∈ place offsets ms) {s : Space} {i : Nat}
    (inside : m.offsets.get s ≤ i ∧ i < m.offsets.get s + (m.object.segment s).size)
    (inside' : m'.offsets.get s ≤ i ∧ i < m'.offsets.get s + (m'.object.segment s).size) : m = m' := by
  induction ms generalizing offsets with
  | nil => cases h
  | cons first rest ih =>
    -- a module that comes later starts where the first one ends
    have after {d : Placed} (later : d ∈ place (offsets.zipWith (fun n s => n + s.size) first.object.segments) rest) :
        offsets.get s + (first.object.segment s).size ≤ d.offsets.get s := by
      have start := le_offsets_of_mem_place later s
      rwa [PerSpace.get_zipWith] at start
    rcases List.mem_cons.1 h with rfl | later <;> rcases List.mem_cons.1 h' with rfl | later'
    · rfl
    · have := after later'
      dsimp only at inside
      omega
    · have := after later
      dsimp only at inside'
      omega
    · exact ih later later'

theorem laidOut_append (ms : List NamedObject) (m : NamedObject) :
    laidOut (ms ++ [m]) = (laidOut ms).zipWith (fun s t => s.append t.bytes) m.object.segments := by
  unfold laidOut
  rw [List.foldl_append]
  rfl

theorem size_laidOut_append (ms : List NamedObject) (m : NamedObject) (s : Space) :
    ((laidOut (ms ++ [m])).get s).size = ((laidOut ms).get s).size + (m.object.segment s).size := by
  rw [laidOut_append, PerSpace.get_zipWith, Segment.size_append]
  rfl

theorem place_append (offsets : PerSpace Nat) (ms : List NamedObject) (m : NamedObject) :
    place offsets (ms ++ [m]) = place offsets ms
      ++ [⟨m, ms.foldl (fun offsets m => offsets.zipWith (fun n s => n + s.size) m.object.segments) offsets⟩] := by
  induction ms generalizing offsets with
  | nil => rfl
  | cons first rest ih => exact congrArg (_ :: ·) (ih _)

theorem foldl_sizes (ms : List NamedObject) (segments : PerSpace Segment) :
    ms.foldl (fun offsets m => offsets.zipWith (fun n s => n + s.size) m.object.segments) (segments.map Segment.size) =
      (ms.foldl (fun segments m => segments.zipWith (fun s t => s.append t.bytes) m.object.segments) segments).map
        Segment.size := by
  induction ms generalizing segments with
  | nil => rfl
  | cons m rest ih =>
    rw [List.foldl_cons, List.foldl_cons, ← ih]
    congr 1
    simp only [PerSpace.zipWith, PerSpace.map, Segment.size_append]
    rfl

/-- A module starts where those before it end. -/
theorem placed_append (ms : List NamedObject) (m : NamedObject) :
    placed (ms ++ [m]) = placed ms ++ [⟨m, (laidOut ms).map Segment.size⟩] := by
  unfold placed
  rw [place_append, laidOut, ← foldl_sizes]
  rfl

/-- A module ends where the linked segment ends, or before. -/
theorem end_le_of_mem_placed {ms : List NamedObject} {m : Placed} (h : m ∈ placed ms) (s : Space) :
    m.offsets.get s + (m.object.segment s).size ≤ ((laidOut ms).get s).size := by
  induction ms using List.reverseRecOn with
  | nil => cases h
  | append_singleton ms last ih =>
    rw [size_laidOut_append]
    rw [placed_append, List.mem_append, List.mem_singleton] at h
    rcases h with before | rfl
    · have := ih before
      omega
    · exact Nat.add_le_add_right (Nat.le_of_eq (PerSpace.get_map Segment.size (laidOut ms) s)) _

theorem map_toNamedObject_place (offsets : PerSpace Nat) (ms : List NamedObject) :
    (place offsets ms).map Placed.toNamedObject = ms := by
  induction ms generalizing offsets with
  | nil => rfl
  | cons m rest ih => exact congrArg (m :: ·) (ih _)

theorem mem_of_mem_placed {ms : List NamedObject} {m : Placed} (h : m ∈ placed ms) : m.toNamedObject ∈ ms := by
  rw [← map_toNamedObject_place (.const 0) ms]
  exact List.mem_map_of_mem h

/-- What holds of all modules in their places and does not depend on these. -/
theorem forall_mem_placed {ms : List NamedObject} {p : NamedObject → Prop} :
    (∀ m ∈ placed ms, p m.toNamedObject) ↔ ∀ m ∈ ms, p m := by
  conv => rhs; rw [← map_toNamedObject_place (.const 0) ms]
  exact List.forall_mem_map.symm

/-! ### What modules make of a name -/

/-- What a module makes of a name that it defines. -/
def definition? (bases : Bases) (n : String) (m : Placed) : Option Global :=
  (m.object.publics.find? (·.name == n)).map fun s =>
    .defined (relocate bases m.offsets s.address) s.address.space? m.name

/-- What modules make of a name: the first definition counts, and without one the first module that asks. -/
def standing? (bases : Bases) (n : String) (ms : List Placed) : Option Global :=
  (ms.findSome? (definition? bases n)).or ((ms.find? (·.asksFor n)).map (.wanted ·.name))

section

variable {bases : Bases} {n who : String} {m : Placed} {ms : List Placed} {g : Global}

theorem of_definition? (h : definition? bases n m = some g) :
    ∃ s ∈ m.object.publics, s.name = n
      ∧ g = .defined (relocate bases m.offsets s.address) s.address.space? m.name := by
  obtain ⟨s, found, rfl⟩ := Option.map_eq_some_iff.1 h
  exact ⟨s, List.mem_of_find?_eq_some found, by simpa using List.find?_some found, rfl⟩

theorem of_findSome?_definition? (h : ms.findSome? (definition? bases n) = some g) :
    ∃ m ∈ ms, ∃ s ∈ m.object.publics, s.name = n
      ∧ g = .defined (relocate bases m.offsets s.address) s.address.space? m.name := by
  obtain ⟨m, mem, found⟩ := List.exists_of_findSome?_eq_some h
  exact ⟨m, mem, of_definition? found⟩

theorem findSome?_definition?_eq_none :
    ms.findSome? (definition? bases n) = none ↔ ∀ m ∈ ms, ∀ s ∈ m.object.publics, s.name ≠ n := by
  simp [List.findSome?_eq_none_iff, definition?]

theorem standing?_eq_defined {value : UInt16} {space : Option Space} {module : String} :
    standing? bases n ms = some (.defined value space module) ↔
      ms.findSome? (definition? bases n) = some (.defined value space module) := by
  unfold standing?
  cases ms.findSome? (definition? bases n) with
  | some g => rfl
  | none => simp

theorem standing?_eq_wanted :
    standing? bases n ms = some (.wanted who) ↔
      ms.findSome? (definition? bases n) = none ∧ ∃ m, ms.find? (·.asksFor n) = some m ∧ m.name = who := by
  unfold standing?
  cases first : ms.findSome? (definition? bases n) with
  | some g =>
    obtain ⟨_, -, _, -, -, rfl⟩ := of_findSome?_definition? first
    simp
  | none => simp

/-- One more module: it defines what was not defined, and asks for what was not known. -/
theorem getElem?_enter_eq_standing? {globals : Std.ExtTreeMap String Global compare}
    (before : globals[n]? = standing? bases n ms) : (enter bases m globals)[n]? = standing? bases n (ms ++ [m]) := by
  have asks : (m.object.externals.find? fun s : Symbol => s.name == n).map (fun _ => Global.wanted m.name) =
      ([m].find? (·.asksFor n)).map (.wanted ·.name) := by
    rw [List.find?_singleton]
    cases found : m.object.externals.find? (fun s : Symbol => s.name == n) with
    | none =>
      have none : m.asksFor n = false := List.any_eq_false.2 (List.find?_eq_none.1 found)
      rw [none]
      rfl
    | some s =>
      have one : m.asksFor n = true :=
        NamedObject.asksFor_iff.2 ⟨s, List.mem_of_find?_eq_some found, by simpa using List.find?_some found⟩
      rw [one]
      rfl
  rw [getElem?_enter, asks, before]
  unfold standing?
  rw [List.findSome?_append, List.findSome?_singleton, List.find?_append, Option.map_or]
  cases first : ms.findSome? (definition? bases n) with
  | some g =>
    obtain ⟨_, -, _, -, -, rfl⟩ := of_findSome?_definition? first
    rfl
  | none =>
    rw [Option.none_or, Option.none_or, ← Option.or_assoc]
    cases ms.find? (·.asksFor n) with
    | none => rfl
    | some m => rfl

end

/-! ### Modules one after another -/

/-- The linker has loaded the modules `ms`, in this order, with or without errors. -/
structure Collects (bases : Bases) (ms : List NamedObject) (l : Linker) : Prop where
  sameBases : l.bases = bases
  modules : l.modules.toList = ms.map (·.name)
  size (s : Space) : (l.segments.get s).size = ((laidOut ms).get s).size
  names (n : String) : l.globals[n]? = standing? bases n (placed ms)
  reports : ∃ causes, l.diagnostics = ({} : Diagnostics).recordAll causes
    ∧ (∀ c ∈ causes, c.category ≠ .undefinedExternal)
    ∧ ((∃ c ∈ causes, c.category = .duplicateSymbol) ↔ ¬ ((ms.flatMap fun m => m.object.publics).map (·.name)).Nodup)

namespace Collects

variable {bases : Bases} {ms ns : List NamedObject} {l l' : Linker} {n who : String}

theorem start (bases : Bases) : Collects bases [] { bases } :=
  ⟨rfl, rfl, fun _ => rfl, fun _ => Std.ExtTreeMap.getElem?_empty, [], rfl, nofun, by simp⟩

section

variable (collects : Collects bases ms l)

include collects

theorem sizes : l.segments.map Segment.size = (laidOut ms).map Segment.size := PerSpace.map_congr collects.size

theorem defines_iff : Defines l.globals n ↔ ∃ m ∈ ms, ∃ s ∈ m.object.publics, s.name = n := by
  have known : Defines l.globals n ↔ (placed ms).findSome? (definition? bases n) ≠ none := by
    unfold Defines
    simp only [collects.names, standing?_eq_defined]
    constructor
    · rintro ⟨value, space, module, found⟩ none
      cases found.symm.trans none
    · intro some
      obtain ⟨g, found⟩ := Option.ne_none_iff_exists'.1 some
      obtain ⟨m, -, s, -, -, rfl⟩ := of_findSome?_definition? found
      exact ⟨_, _, _, found⟩
  rw [known, ne_eq, findSome?_definition?_eq_none,
    forall_mem_placed (p := fun m => ∀ s ∈ m.object.publics, s.name ≠ n)]
  simp

theorem wanted_iff : l.globals[n]? = some (.wanted who) ↔
    (∀ m ∈ ms, ∀ s ∈ m.object.publics, s.name ≠ n) ∧ ∃ m, ms.find? (·.asksFor n) = some m ∧ m.name = who := by
  rw [collects.names, standing?_eq_wanted, findSome?_definition?_eq_none,
    forall_mem_placed (p := fun m => ∀ s ∈ m.object.publics, s.name ≠ n)]
  conv => rhs; rhs; rw [← map_toNamedObject_place (.const 0) ms]
  simp only [List.find?_map, Option.map_eq_some_iff, placed]
  constructor
  · rintro ⟨undefined, m, found, name⟩
    exact ⟨undefined, m.toNamedObject, ⟨m, found, rfl⟩, name⟩
  · rintro ⟨undefined, _, ⟨m, found, rfl⟩, name⟩
    exact ⟨undefined, m, found, name⟩

theorem values {value : UInt16} {space : Option Space} {module : String}
    (h : l.globals[n]? = some (.defined value space module)) :
    ∃ m ∈ placed ms, ∃ s ∈ m.object.publics, s.name = n ∧ value = relocate bases m.offsets s.address := by
  rw [collects.names, standing?_eq_defined] at h
  obtain ⟨m, loaded, s, mem, name, same⟩ := of_findSome?_definition? h
  cases same
  exact ⟨m, loaded, s, mem, name, rfl⟩

/-- A name that is asked for is known. -/
theorem known {m : NamedObject} (loaded : m ∈ ms) {s : Symbol} (mem : s ∈ m.object.externals) :
    l.globals[s.name]?.isSome := by
  by_cases defined : Defines l.globals s.name
  · obtain ⟨_, _, _, found⟩ := defined
    rw [found]
    rfl
  · rw [collects.defines_iff] at defined
    obtain ⟨first, found⟩ := Option.isSome_iff_exists.1
      (List.find?_isSome.2 ⟨m, loaded, NamedObject.asksFor_iff.2 ⟨s, mem, rfl⟩⟩)
    rw [collects.wanted_iff.2 ⟨by simpa using defined, first, found, rfl⟩]
    rfl

/-- One more module that is loaded, with or without errors. -/
theorem load {m : NamedObject} (enters : l.Enters m l') : Collects bases (ms ++ [m]) l' := by
  obtain ⟨causes, recorded, found, double⟩ := collects.reports
  obtain ⟨causes', recorded', found', double'⟩ := enters.reports
  refine ⟨enters.bases.trans collects.sameBases, ?_, fun s => ?_, fun n => ?_, causes ++ causes', ?_, ?_, ?_⟩
  · rw [enters.modules, Array.toList_push, collects.modules, List.map_append]
    rfl
  · rw [enters.sizes, collects.size, size_laidOut_append]
  · rw [enters.globals, collects.sizes, collects.sameBases, placed_append]
    exact getElem?_enter_eq_standing? (collects.names n)
  · rw [recorded', recorded, Diagnostics.recordAll_append]
  · exact List.forall_mem_append.2 ⟨found, found'⟩
  · -- the names are different if those before are, those of the module are, and none of its own is known
    have nodup : (((ms ++ [m]).flatMap fun m => m.object.publics).map (·.name)).Nodup ↔
        ((ms.flatMap fun m => m.object.publics).map (·.name)).Nodup
          ∧ (m.object.publics.map (·.name)).Nodup ∧ ∀ s ∈ m.object.publics, ¬ Defines l.globals s.name := by
      rw [List.flatMap_append, List.flatMap_singleton, List.map_append, List.nodup_append]
      refine and_congr_right fun _ => and_congr_right fun _ => ?_
      simp only [collects.defines_iff, List.mem_map, List.mem_flatMap]
      constructor
      · rintro different s mem ⟨d, loaded, t, exports, same⟩
        exact different _ ⟨t, ⟨d, loaded, exports⟩, rfl⟩ _ ⟨s, mem, rfl⟩ same
      · rintro new _ ⟨t, ⟨d, loaded, exports⟩, rfl⟩ _ ⟨s, mem, rfl⟩ same
        exact new s mem ⟨d, loaded, t, exports, same⟩
    rw [nodup, Classical.not_and_iff_not_or_not, ← double, ← double']
    simp only [List.mem_append, or_and_right, exists_or]

theorem add (adds : Adds l ns l') : Collects bases (ms ++ ns) l' := by
  induction adds generalizing ms with
  | nil =>
    rw [List.append_nil]
    exact collects
  | shelve shelves journal _ ih =>
    exact ih ⟨collects.sameBases, collects.modules, collects.size, collects.names, collects.reports⟩
  | load _ ih =>
    have all := ih (collects.load (enters_addObject _ _))
    rwa [List.append_assoc] at all

end

end Collects

end Linker

end Asm65
