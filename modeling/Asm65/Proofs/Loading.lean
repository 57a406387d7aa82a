import Asm65.Link.Output
import Asm65.Proofs.Overwrite
import Asm65.Proofs.Recording

/-!
# What loading a module does

Loading a module appends its segments, enters its names and writes or keeps its uses. A linker without errors has
loaded each of its modules completely: every use was written at once or kept as a fixup, and every public name was
new. Modules come one by one and from libraries, and only their order matters.
-/

namespace Asm65
set_option autoImplicit false

/-- A module and the name it is loaded under. -/
structure NamedObject where
  name : String
  object : Object

/-- A module whose segments start at `offsets` of the linked ones. -/
structure Placed extends NamedObject where
  offsets : PerSpace Nat

namespace Placed

/-- The place that a use is written to. -/
def offset (m : Placed) (space : Space) (site : Address) : Nat := m.offsets.get space + site.value.toNat

/-- What is written at once for a use: all but external values. -/
def write? (bases : Bases) (m : Placed) (use : Address × Address) : Option Write :=
  match use.1.space?, use.2.origin with
  | none, _ | _, .external _ | _, .undefined => none
  | some space, _ =>
    (Linker.patchBytes? (bases.get space + UInt16.ofNat (m.offset space use.1)) (Linker.relocate bases m.offsets use.2)
      use.2.part use.2.relative).map (⟨space, m.offset space use.1, ·⟩)

/-- What is kept for later for a use: external values. -/
def fixup? (m : Placed) (use : Address × Address) : Option Fixup :=
  match use.1.space?, use.2.origin with
  | some space, .external id =>
    (m.object.symbolName? id).map fun name =>
      ⟨space, m.offset space use.1, name, use.2.value, use.2.part, use.2.relative, m.name⟩
  | _, _ => none

def writes (bases : Bases) (m : Placed) : List Write := m.object.uses.toList.filterMap (m.write? bases)

def fixups (m : Placed) : List Fixup := m.object.uses.toList.filterMap m.fixup?

end Placed

/-- What is written for a fixup once names are known. -/
def Fixup.write? (bases : Bases) (globals : Std.ExtTreeMap String Global compare) (f : Fixup) : Option Write :=
  match globals[f.name]? with
  | some (.defined value _ _) =>
    (Linker.patchBytes? (bases.get f.space + UInt16.ofNat f.offset) (value + f.extra) f.part f.relative).map
      (⟨f.space, f.offset, ·⟩)
  | _ => none

/-- Whether errors of this kind are about which module defines a name. -/
def Category.isAboutNames : Category → Bool
  | .duplicateSymbol | .undefinedExternal => true
  | _ => false

namespace Linker

variable {l l' : Linker}

/-! ### The names -/

/-- A name has a value. -/
def Defines (globals : Std.ExtTreeMap String Global compare) (name : String) : Prop :=
  ∃ value space module, globals[name]? = some (.defined value space module)

/-- The names after one more is defined; the first definition stays. -/
def defining (globals : Std.ExtTreeMap String Global compare) (name : String) (g : Global) :
    Std.ExtTreeMap String Global compare :=
  match globals[name]? with
  | some (.defined ..) => globals
  | _ => globals.insert name g

/-- The names after a module is loaded. -/
def enter (bases : Bases) (m : Placed) (globals : Std.ExtTreeMap String Global compare) :
    Std.ExtTreeMap String Global compare :=
  m.object.externals.foldl (fun globals s => globals.insertIfNew s.name (.wanted m.name))
    (m.object.publics.foldl (fun globals s =>
      defining globals s.name (.defined (relocate bases m.offsets s.address) s.address.space? m.name)) globals)

/-- One more definition changes the entry of its own name alone, and this only if the name has no value yet. -/
theorem getElem?_defining (globals : Std.ExtTreeMap String Global compare) (name : String) (g : Global) (n : String) :
    (defining globals name g)[n]? = globals[n]? ∧ (n ≠ name ∨ Defines globals name)
      ∨ (defining globals name g)[n]? = some g ∧ n = name ∧ ¬ Defines globals name := by
  unfold defining
  split
  · rename_i value space module found
    exact .inl ⟨rfl, .inr ⟨value, space, module, found⟩⟩
  · rename_i undefined
    rw [Std.ExtTreeMap.getElem?_insert]
    split
    · rename_i same
      refine .inr ⟨rfl, (by simpa using same : name = n).symm, ?_⟩
      rintro ⟨value, space, module, found⟩
      exact undefined value space module found
    · rename_i different
      exact .inl ⟨rfl, .inl fun same => different (by simp [same])⟩

/-- Of the definitions of a name the first stays. -/
theorem getElem?_foldl_defining (value : Symbol → UInt16) (module : String) (symbols : List Symbol)
    (globals : Std.ExtTreeMap String Global compare) (n : String) :
    (symbols.foldl (fun globals s => defining globals s.name (.defined (value s) s.address.space? module)) globals)[n]? =
      match globals[n]? with
      | some (.defined v space first) => some (.defined v space first)
      | old => ((symbols.find? (·.name == n)).map fun s => .defined (value s) s.address.space? module).or old := by
  induction symbols generalizing globals with
  | nil =>
    rw [List.foldl_nil]
    split
    · assumption
    · rfl
  | cons s rest ih =>
    rw [List.foldl_cons, ih]
    rcases getElem?_defining globals s.name (.defined (value s) s.address.space? module) n with
      ⟨same, other | ⟨v, space, m, found⟩⟩ | ⟨now, rfl, fresh⟩
    · rw [same, List.find?_cons_of_neg (by simpa using fun h => other h.symm)]
    · rw [same]
      by_cases again : n = s.name
      · rw [again, found]
      · rw [List.find?_cons_of_neg (by simpa using fun h => again h.symm)]
    · rw [now, List.find?_cons_of_pos (by simp)]
      dsimp only
      split
      · rename_i v space m found
        exact (fresh ⟨v, space, m, found⟩).elim
      · rfl

/-- A name that is asked for stays what it is if it is known. -/
theorem getElem?_foldl_insertIfNew (g : Global) (symbols : List Symbol)
    (globals : Std.ExtTreeMap String Global compare) (n : String) :
    (symbols.foldl (fun globals s => globals.insertIfNew s.name g) globals)[n]? =
      globals[n]?.or ((symbols.find? (·.name == n)).map fun _ => g) := by
  induction symbols generalizing globals with
  | nil => rw [List.foldl_nil, List.find?_nil, Option.map_none, Option.or_none]
  | cons s rest ih =>
    rw [List.foldl_cons, ih, Std.ExtTreeMap.getElem?_insertIfNew]
    by_cases again : s.name = n
    · subst again
      rw [List.find?_cons_of_pos (by simp)]
      cases known : globals[s.name]? with
      | some old =>
        rw [if_neg fun h => h.2 (Std.ExtTreeMap.isSome_getElem?_iff_mem.1 (by rw [known]; rfl))]
        rfl
      | none =>
        have absent : ¬ s.name ∈ globals := by
          rw [← Std.ExtTreeMap.isSome_getElem?_iff_mem, known]
          exact Bool.false_ne_true
        rw [if_pos ⟨Std.ReflCmp.compare_self, absent⟩]
        rfl
    · rw [List.find?_cons_of_neg (by simpa using again), if_neg fun h => again (Std.LawfulEqOrd.eq_of_compare h.1)]

section

variable {bases : Bases} {m : Placed} {globals : Std.ExtTreeMap String Global compare} {n : String}

theorem getElem?_enter : (enter bases m globals)[n]? =
    (match globals[n]? with
      | some (.defined v space first) => some (Global.defined v space first)
      | old => ((m.object.publics.find? fun s : Symbol => s.name == n).map fun s : Symbol =>
          Global.defined (relocate bases m.offsets s.address) s.address.space? m.name).or old).or
      ((m.object.externals.find? fun s : Symbol => s.name == n).map fun _ => Global.wanted m.name) := by
  rw [enter, getElem?_foldl_insertIfNew,
    getElem?_foldl_defining (fun s => relocate bases m.offsets s.address) m.name m.object.publics globals n]

end

/-! ### What changes -/

/-- Nothing is new but bytes in segments of the same sizes, fixups, and errors that are not about names. -/
structure Reworks (l l' : Linker) : Prop where
  bases : l'.bases = l.bases
  globals : l'.globals = l.globals
  shelves : l'.shelves = l.shelves
  modules : l'.modules = l.modules
  sizes (s : Space) : (l'.segments.get s).size = (l.segments.get s).size
  reports : ∃ causes, (∀ c ∈ causes, c.category.isAboutNames = false)
    ∧ l'.diagnostics = l.diagnostics.recordAll causes

namespace Reworks

theorem refl (l : Linker) : l.Reworks l := ⟨rfl, rfl, rfl, rfl, fun _ => rfl, [], nofun, rfl⟩

theorem record (l : Linker) {cause : Cause} (other : cause.category.isAboutNames = false) : l.Reworks (l.record cause) :=
  ⟨rfl, rfl, rfl, rfl, fun _ => rfl, [cause], by simpa using other, rfl⟩

theorem trans {l'' : Linker} (first : l.Reworks l') (second : l'.Reworks l'') : l.Reworks l'' := by
  obtain ⟨causes, others, same⟩ := first.reports
  obtain ⟨causes', others', same'⟩ := second.reports
  refine ⟨second.bases.trans first.bases, second.globals.trans first.globals, second.shelves.trans first.shelves,
    second.modules.trans first.modules, fun s => (second.sizes s).trans (first.sizes s), causes ++ causes', ?_, ?_⟩
  · rw [List.forall_mem_append]
    exact ⟨others, others'⟩
  · rw [same', same, Diagnostics.recordAll_append]

/-- Many steps change no more than one. -/
theorem foldl {α : Type} {f : Linker → α → Linker} (step : ∀ l a, Reworks l (f l a)) (l : Linker) (as : List α) :
    l.Reworks (as.foldl f l) := by
  induction as generalizing l with
  | nil => exact .refl l
  | cons a rest ih => exact (step l a).trans (ih (f l a))

end Reworks

theorem reworks_patch (l : Linker) (space : Space) (offset : Nat) (value : UInt16) (part : Part) (relative : Bool)
    (module : String) : l.Reworks (l.patch space offset value part relative module) := by
  unfold patch
  dsimp only
  split
  · exact .record l rfl
  · rename_i bytes found
    split
    · exact ⟨rfl, rfl, rfl, rfl, Write.size_apply l.segments ⟨space, offset, bytes⟩, [], nofun, rfl⟩
    · exact .record l rfl

theorem reworks_applyUse (o : Object) (module : String) (offsets : PerSpace Nat) (l : Linker) (site value : Address) :
    l.Reworks (applyUse o module offsets l site value) := by
  unfold applyUse
  cases site.space? with
  | none => exact .record l rfl
  | some space =>
    cases value.origin with
    | absolute => exact reworks_patch ..
    | space => exact reworks_patch ..
    | undefined => exact .record l rfl
    | external id =>
      dsimp only
      cases o.symbolName? id with
      | none => exact .record l rfl
      | some name => exact ⟨rfl, rfl, rfl, rfl, fun _ => rfl, [], nofun, rfl⟩

/-- A definition of a name that has a value is an error. -/
theorem define_eq (l : Linker) (name : String) (value : UInt16) (space : Option Space) (module : String) :
    ∃ causes, l.define name value space module =
        { l with
          globals := defining l.globals name (.defined value space module)
          diagnostics := l.diagnostics.recordAll causes }
      ∧ (∀ c ∈ causes, c.category = .duplicateSymbol) ∧ (causes = [] ↔ ¬ Defines l.globals name) := by
  unfold define
  split
  · rename_i value space first found
    refine ⟨[.definedTwice name first module], ?_, by simp [Cause.category], ?_⟩
    · rw [defining, found]
      rfl
    · simpa using ⟨value, space, first, found⟩
  · rename_i fresh
    refine ⟨[], ?_, nofun, ?_⟩
    · unfold defining
      split
      · rename_i value space first found
        exact (fresh value space first found).elim
      · rfl
    · refine iff_of_true rfl ?_
      rintro ⟨value, space, first, found⟩
      exact fresh value space first found

/-- Which names have a value after one more definition. -/
theorem defines_defining {globals : Std.ExtTreeMap String Global compare} {name n : String} {value : UInt16}
    {space : Option Space} {module : String} :
    Defines (defining globals name (.defined value space module)) n ↔ n = name ∨ Defines globals n := by
  unfold Defines
  rcases getElem?_defining globals name (.defined value space module) n with ⟨same, known⟩ | ⟨now, rfl, -⟩
  · rw [same]
    refine ⟨.inr, fun h => h.elim ?_ id⟩
    rintro rfl
    exact known.resolve_left fun different => different rfl
  · rw [now]
    exact iff_of_true ⟨_, _, _, rfl⟩ (.inl rfl)

/-- Definitions go without error if their names are new and different. -/
theorem foldl_define_eq (m : Placed) (l : Linker) (symbols : List Symbol) :
    ∃ causes,
      symbols.foldl (fun l s => l.define s.name (relocate l.bases m.offsets s.address) s.address.space? m.name) l =
          { l with
            globals := symbols.foldl (fun globals s =>
              defining globals s.name (.defined (relocate l.bases m.offsets s.address) s.address.space? m.name)) l.globals
            diagnostics := l.diagnostics.recordAll causes }
        ∧ (∀ c ∈ causes, c.category = .duplicateSymbol)
        ∧ (causes = [] ↔ (symbols.map (·.name)).Nodup ∧ ∀ s ∈ symbols, ¬ Defines l.globals s.name) := by
  induction symbols generalizing l with
  | nil => exact ⟨[], rfl, nofun, by simp⟩
  | cons s rest ih =>
    obtain ⟨causes, first, double, none⟩ :=
      l.define_eq s.name (relocate l.bases m.offsets s.address) s.address.space? m.name
    obtain ⟨causes', others, double', none'⟩ :=
      ih (l.define s.name (relocate l.bases m.offsets s.address) s.address.space? m.name)
    refine ⟨causes ++ causes', ?_, List.forall_mem_append.2 ⟨double, double'⟩, ?_⟩
    · rw [List.foldl_cons, others, first, Diagnostics.recordAll_append]
      rfl
    · rw [first] at none'
      simp only [defines_defining, not_or] at none'
      rw [List.append_eq_nil_iff, none, none', List.map_cons, List.nodup_cons, List.forall_mem_cons, List.mem_map]
      constructor
      · rintro ⟨new, nodup, others⟩
        exact ⟨⟨fun ⟨t, mem, same⟩ => (others t mem).1 same, nodup⟩, new, fun t mem => (others t mem).2⟩
      · rintro ⟨⟨different, nodup⟩, new, others⟩
        exact ⟨new, nodup, fun t mem => ⟨fun same => different ⟨t, mem, same⟩, others t mem⟩⟩

theorem foldl_want_eq (l : Linker) (symbols : List Symbol) (module : String) :
    symbols.foldl (fun l s => l.want s.name module) l =
      { l with globals := symbols.foldl (fun globals s => globals.insertIfNew s.name (.wanted module)) l.globals } := by
  induction symbols generalizing l with
  | nil => rfl
  | cons s rest ih => exact ih (l.want s.name module)

/-- The linker has loaded `m`, with or without errors. The segments are as much longer as its own are, and what names
it enters does not depend on its uses. Names that it defines again are reported, and none that are missing. -/
structure Enters (l : Linker) (m : NamedObject) (l' : Linker) : Prop where
  bases : l'.bases = l.bases
  shelves : l'.shelves = l.shelves
  modules : l'.modules = l.modules.push m.name
  globals : l'.globals = enter l.bases ⟨m, l.segments.map Segment.size⟩ l.globals
  sizes (s : Space) : (l'.segments.get s).size = (l.segments.get s).size + (m.object.segment s).size
  reports : ∃ causes, l'.diagnostics = l.diagnostics.recordAll causes
    ∧ (∀ c ∈ causes, c.category ≠ .undefinedExternal)
    ∧ ((∃ c ∈ causes, c.category = .duplicateSymbol) ↔
        ¬ ((m.object.publics.map (·.name)).Nodup ∧ ∀ s ∈ m.object.publics, ¬ Defines l.globals s.name))

/-- Loading a module enters it: its segments, its names and its uses. -/
theorem enters_addObject (l : Linker) (m : NamedObject) : l.Enters m (l.addObject m.name m.object) := by
  have used : Reworks _ (l.addObject m.name m.object) := .foldl
    (fun l' (use : Address × Address) => reworks_applyUse m.object m.name (l.segments.map Segment.size) l' use.1 use.2)
    _ m.object.uses.toList
  rw [foldl_want_eq] at used
  obtain ⟨causes, defined, double, none⟩ := foldl_define_eq ⟨m, l.segments.map Segment.size⟩ _ m.object.publics
  rw [defined] at used
  obtain ⟨causes', others, same⟩ := used.reports
  have other {c : Cause} (mem : c ∈ causes') : c.category ≠ .duplicateSymbol ∧ c.category ≠ .undefinedExternal := by
    have := others c mem
    constructor <;> intro category <;> rw [category] at this <;> cases this
  refine ⟨used.bases, used.shelves, used.modules, used.globals, fun s => ?_, causes ++ causes', ?_, ?_, ?_⟩
  · rw [used.sizes]
    simp only [PerSpace.get_zipWith, Segment.size_append]
    rfl
  · rw [same, Diagnostics.recordAll_append]
    rfl
  · rw [List.forall_mem_append]
    exact ⟨fun c mem => by rw [double c mem]; nofun, fun c mem => (other mem).2⟩
  · refine Iff.trans ?_ (not_congr none)
    constructor
    · rintro ⟨c, mem, category⟩ rfl
      exact (other mem).1 category
    · intro some
      obtain ⟨c, mem⟩ := List.exists_mem_of_ne_nil causes some
      exact ⟨c, List.mem_append_left _ mem, double c mem⟩

/-! ### Steps without errors -/

/-- A patch that causes no error writes its bytes, which fit, and changes nothing else. -/
theorem of_patch {space : Space} {offset : Nat} {value : UInt16} {part : Part} {relative : Bool} {module : String}
    (clean : (l.patch space offset value part relative module).diagnostics.isEmpty = true) :
    l.diagnostics.isEmpty = true ∧ ∃ bytes,
      patchBytes? (l.bases.get space + UInt16.ofNat offset) value part relative = some bytes
      ∧ Write.Fits ⟨space, offset, bytes⟩ l.segments
      ∧ l.patch space offset value part relative module =
          { l with segments := Write.apply l.segments ⟨space, offset, bytes⟩ } := by
  unfold patch at clean ⊢
  dsimp only at clean ⊢
  split at clean
  · cases (Diagnostics.isEmpty_record ..).symm.trans clean
  · rename_i bytes found
    split at clean
    · rename_i fits
      exact ⟨clean, bytes, found, fits, if_pos fits⟩
    · cases (Diagnostics.isEmpty_record ..).symm.trans clean

/-- A use is written or kept, and not both. -/
theorem of_applyUse {m : Placed} {use : Address × Address}
    (clean : (applyUse m.object m.name m.offsets l use.1 use.2).diagnostics.isEmpty = true) :
    l.diagnostics.isEmpty = true
      ∧ ((∃ w, m.write? l.bases use = some w ∧ m.fixup? use = none ∧ w.Fits l.segments
            ∧ applyUse m.object m.name m.offsets l use.1 use.2 = { l with segments := w.apply l.segments })
        ∨ ∃ f, m.write? l.bases use = none ∧ m.fixup? use = some f
            ∧ applyUse m.object m.name m.offsets l use.1 use.2 = { l with fixups := l.fixups.push f }) := by
  obtain ⟨site, value⟩ := use
  unfold applyUse at clean ⊢
  unfold Placed.write? Placed.fixup?
  dsimp only at clean ⊢
  cases located : site.space? with
  | none =>
    rw [located] at clean
    cases (Diagnostics.isEmpty_record ..).symm.trans clean
  | some space =>
    rw [located] at clean
    cases origin : value.origin with
    | absolute =>
      rw [origin] at clean
      obtain ⟨before, bytes, found, fits, same⟩ := of_patch clean
      exact ⟨before, .inl ⟨_, congrArg (Option.map _) found, rfl, fits, same⟩⟩
    | space s =>
      rw [origin] at clean
      obtain ⟨before, bytes, found, fits, same⟩ := of_patch clean
      exact ⟨before, .inl ⟨_, congrArg (Option.map _) found, rfl, fits, same⟩⟩
    | undefined =>
      rw [origin] at clean
      cases (Diagnostics.isEmpty_record ..).symm.trans clean
    | external id =>
      rw [origin] at clean
      dsimp only at clean ⊢
      cases named : m.object.symbolName? id with
      | none =>
        rw [named] at clean
        cases (Diagnostics.isEmpty_record ..).symm.trans clean
      | some name =>
        rw [named] at clean
        exact ⟨clean, .inr ⟨_, rfl, rfl, rfl⟩⟩

/-- Uses that cause no error are written at once or kept for later, each one in its turn. -/
theorem of_foldl_applyUse {m : Placed} {uses : List (Address × Address)}
    (clean : (uses.foldl (fun l use => applyUse m.object m.name m.offsets l use.1 use.2) l).diagnostics.isEmpty = true) :
    l.diagnostics.isEmpty = true
      ∧ (∀ use ∈ uses, (m.write? l.bases use).isSome ∨ (m.fixup? use).isSome)
      ∧ (∀ w ∈ uses.filterMap (m.write? l.bases), w.Fits l.segments)
      ∧ uses.foldl (fun l use => applyUse m.object m.name m.offsets l use.1 use.2) l =
          { l with
            segments := (uses.filterMap (m.write? l.bases)).foldl Write.apply l.segments
            fixups := l.fixups ++ (uses.filterMap m.fixup?).toArray } := by
  induction uses generalizing l with
  | nil =>
    refine ⟨clean, fun _ none => (List.not_mem_nil none).elim, fun _ none => (List.not_mem_nil none).elim, ?_⟩
    simp
  | cons use rest ih =>
    obtain ⟨first, others, fits, same⟩ := ih clean
    obtain ⟨before, ⟨w, written, notKept, room, step⟩ | ⟨f, notWritten, kept, step⟩⟩ := of_applyUse first
    · dsimp only at fits others same
      rw [step] at fits others same
      rw [List.filterMap_cons_some written, List.filterMap_cons_none notKept, List.foldl_cons, step]
      refine ⟨before, List.forall_mem_cons.2 ⟨.inl (by rw [written]; rfl), others⟩,
        List.forall_mem_cons.2 ⟨room, fun w' mem => ?_⟩, same⟩
      exact (Write.fits_congr (Write.size_apply l.segments w)).1 (fits w' mem)
    · dsimp only at fits others same
      rw [step] at fits others same
      rw [List.filterMap_cons_none notWritten, List.filterMap_cons_some kept, List.foldl_cons, step]
      refine ⟨before, List.forall_mem_cons.2 ⟨.inr (by rw [kept]; rfl), others⟩, fits, ?_⟩
      rw [same, List.toArray_cons, Array.push_eq_append, Array.append_assoc]

/-- The linker has loaded `m` and recorded no error. -/
structure Loads (l : Linker) (m : Placed) (l' : Linker) : Prop where
  uses : ∀ use ∈ m.object.uses.toList, (m.write? l.bases use).isSome ∨ (m.fixup? use).isSome
  fits : ∀ w ∈ m.writes l.bases, w.Fits l'.segments
  segments : l'.segments =
    (m.writes l.bases).foldl Write.apply (l.segments.zipWith (fun s t => s.append t.bytes) m.object.segments)
  fixups : l'.fixups = l.fixups ++ m.fixups.toArray

theorem loads_addObject {m : NamedObject} (clean : (l.addObject m.name m.object).diagnostics.isEmpty = true) :
    l.diagnostics.isEmpty = true ∧ l.Loads ⟨m, l.segments.map Segment.size⟩ (l.addObject m.name m.object) := by
  obtain ⟨wanted, uses, fits, used⟩ := of_foldl_applyUse (m := ⟨m, l.segments.map Segment.size⟩) clean
  have result : l.addObject m.name m.object = _ := used
  rw [foldl_want_eq] at wanted uses fits result
  obtain ⟨_, defined, -⟩ := foldl_define_eq ⟨m, l.segments.map Segment.size⟩ _ m.object.publics
  rw [defined] at wanted uses fits result
  rw [result]
  refine ⟨(Diagnostics.isEmpty_recordAll.1 wanted).1, uses, fun w mem => ?_, rfl, rfl⟩
  exact (Write.fits_congr (Write.size_foldl_apply _ _)).2 (fits w mem)

/-! ### Modules one after another -/

/-- Modules are loaded in order. What is on the shelves meanwhile is left open. -/
inductive Adds : Linker → List NamedObject → Linker → Prop where
  | nil (l : Linker) : Adds l [] l
  | shelve {l r : Linker} {ms : List NamedObject} (shelves : List Shelf) (journal : List LinkEvent)
    (rest : Adds { l with shelves, journal } ms r) : Adds l ms r
  | load {l r : Linker} {m : NamedObject} {ms : List NamedObject} (rest : Adds (l.addObject m.name m.object) ms r) :
    Adds l (m :: ms) r

namespace Adds

theorem append {l m r : Linker} {ms ns : List NamedObject} (first : Adds l ms m) (second : Adds m ns r) :
    Adds l (ms ++ ns) r := by
  induction first with
  | nil => exact second
  | shelve shelves journal _ ih => exact .shelve shelves journal (ih second)
  | load _ ih => exact .load (ih second)

/-- Errors stay. -/
theorem clean {l r : Linker} {ms : List NamedObject} (adds : Adds l ms r) (clean : r.diagnostics.isEmpty = true) :
    l.diagnostics.isEmpty = true := by
  induction adds with
  | nil => exact clean
  | shelve _ _ _ ih => exact ih clean
  | load _ ih => exact (loads_addObject (ih clean)).1

end Adds

/-- What a linker is given. -/
inductive Input where
  | object (name : String) (o : Object)
  | library (name : String) (library : Library)

namespace Input

/-- The module, unless it is a library. -/
def module? : Input → Option NamedObject
  | .object name o => some ⟨name, o⟩
  | .library .. => none

/-- The library, all of whose modules are there to be taken. -/
def shelf? : Input → Option Shelf
  | .object .. => none
  | .library name contents => some (.ofLibrary name contents)

end Input

def add (l : Linker) : Input → Linker
  | .object name o => l.addObject name o
  | .library name library => l.addLibrary name library

/-- A linker that has been given all inputs in order. -/
def load (bases : Bases) (inputs : List Input) : Linker := inputs.foldl add { bases }

theorem adds_foldl_add (l : Linker) (inputs : List Input) : Adds l (inputs.filterMap Input.module?) (inputs.foldl add l) := by
  induction inputs generalizing l with
  | nil => exact .nil l
  | cons input rest ih =>
    cases input with
    | object name o => exact .load (ih (l.addObject name o))
    | library name library => exact .shelve _ _ (ih (l.addLibrary name library))

/-- The shelves are the libraries in the order they were given. -/
theorem shelves_foldl_add (l : Linker) (inputs : List Input) :
    (inputs.foldl add l).shelves = l.shelves ++ inputs.filterMap Input.shelf? := by
  induction inputs generalizing l with
  | nil => rw [List.foldl_nil, List.filterMap_nil, List.append_nil]
  | cons input rest ih =>
    rw [List.foldl_cons, ih]
    cases input with
    | object name o =>
      rw [add, (l.enters_addObject ⟨name, o⟩).shelves]
      rfl
    | library name library =>
      rw [add, addLibrary]
      exact List.append_assoc ..

end Linker

end Asm65
