import Asm65.Proofs.LinkedImage
import Mathlib.Data.List.Perm.Basic

/-!
# What a link says about names

A link reports the names that some module asks for and none defines, and whether a name is defined twice. If there
is nothing to report, its map has every public symbol of every module once.
-/

namespace Asm65
set_option autoImplicit false

/-- The line of a public symbol in the map. -/
def Placed.entry (bases : Bases) (m : Placed) (s : Symbol) : MapEntry where
  name := s.name
  address := match s.address.space? with
    | some space => bases.get space + UInt16.ofNat (m.offsets.get space) + s.address.value
    | none => s.address.value
  space := s.address.space?
  module := m.name

namespace Linker

variable {l : Linker}

/-! ### Errors -/

/-- The errors that a link gives. -/
def errors (l : Linker) : Diagnostics :=
  match l.link with
  | .ok _ => {}
  | .error d => d

theorem errors_eq {causes : List Cause} (recorded : l.finish.diagnostics = ({} : Diagnostics).recordAll causes) :
    l.errors = ({} : Diagnostics).recordAll causes := by
  unfold errors link result
  cases clean : l.finish.diagnostics.isEmpty with
  | false => exact recorded
  | true =>
    rw [recorded, Diagnostics.isEmpty_recordAll] at clean
    rw [clean.2]
    rfl

/-- The error that a name is missing, if it is wanted. -/
def missing? (e : String × Global) : Option Cause :=
  match e.2 with
  | .wanted module => some (.externalUndefined e.1 module)
  | .defined .. => none

theorem mem_missing {c : Cause} :
    c ∈ l.globals.toList.filterMap missing? ↔
      ∃ name who, l.globals[name]? = some (.wanted who) ∧ c = .externalUndefined name who := by
  simp only [List.mem_filterMap, Prod.exists, Std.ExtTreeMap.mem_toList_iff_getElem?_eq_some]
  constructor
  · rintro ⟨name, g, found, missing⟩
    cases g with
    | wanted who =>
      cases missing
      exact ⟨name, who, found, rfl⟩
    | defined => cases missing
  · rintro ⟨name, who, found, rfl⟩
    exact ⟨name, .wanted who, found, rfl⟩

theorem reportWanted_eq (l : Linker) :
    l.reportWanted = { l with diagnostics := l.diagnostics.recordAll (l.globals.toList.filterMap missing?) } := by
  unfold reportWanted
  generalize l.globals.toList = es
  induction es generalizing l with
  | nil => rfl
  | cons e rest ih =>
    obtain ⟨name, g⟩ := e
    rw [List.foldl_cons, ih]
    cases g with
    | wanted => rfl
    | defined => rfl

theorem reworks_applyFixup (l : Linker) (f : Fixup) : l.Reworks (l.applyFixup f) := by
  unfold applyFixup
  split
  · exact reworks_patch ..
  · exact .refl l

theorem reworks_check (l : Linker) (c : Prop) [Decidable c] (cause : Cause)
    (other : cause.category.isAboutNames = false) : l.Reworks (if c then l.record cause else l) := by
  split
  · exact .record l other
  · exact .refl l

theorem reworks_checkLayout (l : Linker) : l.Reworks l.checkLayout := by
  unfold checkLayout
  dsimp only
  have zeroPage := l.reworks_check (l.bases.zeroPage.toNat + l.segments.zeroPage.size > 0x100)
    (.zeroPageTooLong (l.bases.zeroPage.toNat + l.segments.zeroPage.size - 1)) rfl
  refine zeroPage.trans (.trans (.foldl (fun l e => ?_) _ _) (.foldl (fun l e => ?_) _ _))
  · exact l.reworks_check _ _ rfl
  · exact .record l rfl

/-- All that happens after the search of the libraries is that wanted names are reported, and errors that are not
about names. -/
theorem finish_reports (l : Linker) :
    l.finish.globals = l.pullAll.globals ∧ ∃ causes, (∀ c ∈ causes, c.category.isAboutNames = false)
      ∧ l.finish.diagnostics =
        l.pullAll.diagnostics.recordAll (l.pullAll.globals.toList.filterMap missing? ++ causes) := by
  have fixed : l.pullAll.reportWanted.Reworks (l.pullAll.reportWanted.fixups.foldl applyFixup l.pullAll.reportWanted) := by
    rw [← Array.foldl_toList]
    exact .foldl reworks_applyFixup _ _
  have all : l.pullAll.reportWanted.Reworks l.finish := fixed.trans (reworks_checkLayout _)
  rw [reportWanted_eq] at all
  obtain ⟨causes, others, same⟩ := all.reports
  refine ⟨all.globals, causes, others, ?_⟩
  rw [same, Diagnostics.recordAll_append]

/-! ### The map -/

theorem mem_symbolMap {e : MapEntry} :
    e ∈ l.symbolMap ↔ l.globals[e.name]? = some (.defined e.address e.space e.module) := by
  unfold symbolMap
  rw [(List.mergeSort_perm _ _).mem_iff]
  simp only [List.mem_filterMap, Prod.exists, Std.ExtTreeMap.mem_toList_iff_getElem?_eq_some]
  constructor
  · rintro ⟨name, g, found, line⟩
    cases g with
    | wanted => cases line
    | defined =>
      cases line
      exact found
  · intro found
    exact ⟨_, _, found, rfl⟩

theorem pairwise_name_symbolMap (l : Linker) : l.symbolMap.Pairwise fun a b => a.name ≠ b.name := by
  unfold symbolMap
  rw [(List.mergeSort_perm _ _).pairwise_iff Ne.symm]
  refine List.Pairwise.filterMap _ (fun e e' different a line a' line' same => different ?_)
    Std.ExtTreeMap.distinct_keys_toList
  obtain ⟨name, g⟩ := e
  obtain ⟨name', g'⟩ := e'
  cases g with
  | wanted => cases line
  | defined => cases g' with
    | wanted => cases line'
    | defined =>
      cases line
      cases line'
      exact Std.LawfulEqCmp.compare_eq_iff_eq.2 same

theorem mapLe_iff {a b : MapEntry} :
    mapLe a b = true ↔ a.address < b.address ∨ a.address = b.address ∧ a.name ≤ b.name := by
  simp [mapLe]

theorem mapLe_trans (a b c : MapEntry) (first : mapLe a b = true) (second : mapLe b c = true) : mapLe a c = true := by
  rw [mapLe_iff] at *
  rcases first with less | ⟨same, name⟩ <;> rcases second with less' | ⟨same', name'⟩
  · exact .inl (UInt16.lt_trans less less')
  · exact .inl (same' ▸ less)
  · exact .inl (same ▸ less')
  · exact .inr ⟨same.trans same', String.le_trans name name'⟩

theorem mapLe_total (a b : MapEntry) : (mapLe a b || mapLe b a) = true := by
  rw [Bool.or_eq_true, mapLe_iff, mapLe_iff]
  rcases Nat.lt_trichotomy a.address.toNat b.address.toNat with less | same | less
  · exact .inl (.inl (UInt16.lt_iff_toNat_lt.2 less))
  · have same := UInt16.toNat_inj.1 same
    exact (String.le_total a.name b.name).imp (fun h => .inr ⟨same, h⟩) fun h => .inr ⟨same.symm, h⟩
  · exact .inr (.inl (UInt16.lt_iff_toNat_lt.2 less))

/-- The map is sorted by address, and by name where addresses are the same. -/
theorem pairwise_symbolMap (l : Linker) :
    l.symbolMap.Pairwise fun a b => a.address < b.address ∨ a.address = b.address ∧ a.name < b.name := by
  have sorted : l.symbolMap.Pairwise fun a b => mapLe a b = true := List.pairwise_mergeSort mapLe_trans mapLe_total _
  refine (sorted.and l.pairwise_name_symbolMap).imp ?_
  rintro a b ⟨le, different⟩
  refine (mapLe_iff.1 le).imp_right fun ⟨same, name⟩ => ⟨same, ?_⟩
  exact String.not_le.1 fun back => different (String.le_antisymm name back)

/-- If no name is defined twice, the names that have a value are those of the public symbols, each with its own. -/
theorem Collects.perm_symbolMap {bases : Bases} {ms : List NamedObject} (collects : Collects bases ms l)
    (nodup : ((ms.flatMap fun m => m.object.publics).map (·.name)).Nodup) :
    l.symbolMap.Perm ((placed ms).flatMap fun m => m.object.publics.map (m.entry bases)) := by
  have nodup : (((placed ms).flatMap fun m => m.object.publics).map (·.name)).Nodup := by
    rw [← map_toNamedObject_place (.const 0) ms, List.flatMap_map] at nodup
    exact nodup
  have entries : ((placed ms).flatMap fun m => m.object.publics.map (m.entry bases)).Nodup := by
    refine .of_map MapEntry.name ?_
    rw [List.map_flatMap] at nodup ⊢
    simp only [List.map_map]
    exact nodup
  have lines : l.symbolMap.Nodup := l.pairwise_name_symbolMap.imp fun different same => different (congrArg _ same)
  refine (List.perm_ext_iff_of_nodup lines entries).2 fun e => ?_
  rw [mem_symbolMap, collects.names, standing?_eq_defined, List.mem_flatMap]
  constructor
  · intro found
    obtain ⟨m, loaded, s, mem, name, same⟩ := of_findSome?_definition? found
    obtain ⟨_, _, _, _⟩ := e
    dsimp only at name same
    cases same
    subst name
    exact ⟨m, loaded, List.mem_map.2 ⟨s, mem, rfl⟩⟩
  · rintro ⟨m, loaded, line⟩
    obtain ⟨s, mem, rfl⟩ := List.mem_map.1 line
    have known : (placed ms).findSome? (definition? bases s.name) ≠ none :=
      fun none => findSome?_definition?_eq_none.1 none m loaded s mem rfl
    obtain ⟨g, found⟩ := Option.ne_none_iff_exists'.1 known
    obtain ⟨d, loaded', t, mem', name, same⟩ := of_findSome?_definition? found
    obtain ⟨rfl, rfl⟩ := eq_of_nodup_names nodup loaded' loaded mem' mem name
    exact found.trans (congrArg some same)

/-! ### Names and errors -/

/-- The errors of a link of modules `ms`: those of loading, the names that are left, and others that are not about
names. -/
structure Reports (l : Linker) (ms : List NamedObject) (loading others : List Cause) : Prop where
  recorded : l.finish.diagnostics =
    ({} : Diagnostics).recordAll (loading ++ (l.pullAll.globals.toList.filterMap missing? ++ others))
  found : ∀ c ∈ loading, c.category ≠ .undefinedExternal
  double : (∃ c ∈ loading, c.category = .duplicateSymbol) ↔
    ¬ ((ms.flatMap fun m => m.object.publics).map (·.name)).Nodup
  unrelated : ∀ c ∈ others, c.category.isAboutNames = false

namespace Reports

variable {ms : List NamedObject} {loading others : List Cause} {c : Cause} {text : String}

/-- Names are missing only at the end. -/
theorem mem_missing (reports : Reports l ms loading others)
    (mem : c ∈ loading ++ (l.pullAll.globals.toList.filterMap missing? ++ others))
    (category : c.category = .undefinedExternal) : c ∈ l.pullAll.globals.toList.filterMap missing? := by
  rcases List.mem_append.1 mem with early | late
  · exact (reports.found c early category).elim
  · refine (List.mem_append.1 late).resolve_right fun other => ?_
    have unrelated := reports.unrelated c other
    rw [category] at unrelated
    cases unrelated

/-- Names are defined twice only by loading. -/
theorem mem_loading (reports : Reports l ms loading others)
    (mem : c ∈ loading ++ (l.pullAll.globals.toList.filterMap missing? ++ others))
    (category : c.category = .duplicateSymbol) : c ∈ loading := by
  refine (List.mem_append.1 mem).resolve_right fun late => ?_
  rcases List.mem_append.1 late with missing | other
  · obtain ⟨name, who, -, rfl⟩ := Linker.mem_missing.1 missing
    cases category
  · have unrelated := reports.unrelated c other
    rw [category] at unrelated
    cases unrelated

theorem mem_undefinedExternal (reports : Reports l ms loading others) :
    text ∈ l.errors.texts .undefinedExternal ↔
      ∃ name who, l.pullAll.globals[name]? = some (.wanted who) ∧ text = (Cause.externalUndefined name who).message := by
  simp only [errors_eq reports.recorded, Diagnostics.mem_texts_recordAll, Diagnostics.texts_empty, List.not_mem_nil,
    false_or]
  constructor
  · rintro ⟨c, mem, category, rfl⟩
    obtain ⟨name, who, asked, rfl⟩ := Linker.mem_missing.1 (reports.mem_missing mem category)
    exact ⟨name, who, asked, rfl⟩
  · rintro ⟨name, who, asked, rfl⟩
    have missing := Linker.mem_missing.2 ⟨name, who, asked, rfl⟩
    exact ⟨_, List.mem_append_right _ (List.mem_append_left _ missing), rfl, rfl⟩

theorem duplicateSymbol_ne_nil (reports : Reports l ms loading others) :
    l.errors.texts .duplicateSymbol ≠ [] ↔ ¬ ((ms.flatMap fun m => m.object.publics).map (·.name)).Nodup := by
  rw [errors_eq reports.recorded, Diagnostics.texts_recordAll_ne_nil, ← reports.double]
  constructor
  · rintro ⟨c, mem, category⟩
    exact ⟨c, reports.mem_loading mem category, category⟩
  · rintro ⟨c, mem, category⟩
    exact ⟨c, List.mem_append_left _ mem, category⟩

/-- Where a link succeeds, no name is defined twice. -/
theorem nodup (reports : Reports l ms loading others) {out : LinkOutput} (linked : l.link = .ok out) :
    ((ms.flatMap fun m => m.object.publics).map (·.name)).Nodup := by
  have clean := (eq_of_link linked).1
  rw [reports.recorded, Diagnostics.isEmpty_recordAll, List.append_eq_nil_iff] at clean
  refine Classical.not_not.1 fun again => ?_
  obtain ⟨c, mem, -⟩ := reports.double.2 again
  rw [clean.2.1] at mem
  cases mem

end Reports

section

variable {bases : Bases} {ms : List NamedObject}

theorem Collects.exists_reports (collects : Collects bases ms l.pullAll) : ∃ loading others, Reports l ms loading others := by
  obtain ⟨-, others, unrelated, finished⟩ := l.finish_reports
  obtain ⟨loading, recorded, found, double⟩ := collects.reports
  rw [recorded, ← Diagnostics.recordAll_append] at finished
  exact ⟨loading, others, finished, found, double, unrelated⟩

/-- A name is left if no module defines it and there is a first one that asks for it. -/
theorem Collects.mem_wanted_iff (collects : Collects bases ms l) {name : String} : name ∈ l.wanted ↔
    (∀ m ∈ ms, ∀ s ∈ m.object.publics, s.name ≠ name) ∧ ∃ m, ms.find? (·.asksFor name) = some m := by
  simp [mem_wanted, collects.wanted_iff]

/-- A name is left if some module asks for it and none defines it. -/
theorem Collects.mem_wanted_iff_asked (collects : Collects bases ms l) {name : String} : name ∈ l.wanted ↔
    (∃ m ∈ ms, ∃ s ∈ m.object.externals, s.name = name) ∧ ∀ m ∈ ms, ∀ s ∈ m.object.publics, s.name ≠ name := by
  rw [collects.mem_wanted_iff, and_comm, ← Option.isSome_iff_exists, List.find?_isSome]
  simp only [NamedObject.asksFor_iff]

end

/-- What is said about the names of modules `ms`, which are all that linker `l` loads. -/
structure Resolves (bases : Bases) (ms : List NamedObject) (l : Linker) : Prop where
  modules : l.pullAll.modules.toList = ms.map (·.name)
  /-- The search leaves the names that some module asks for and none defines. -/
  wanted {name : String} : name ∈ l.pullAll.wanted ↔
    (∃ m ∈ ms, ∃ s ∈ m.object.externals, s.name = name) ∧ ∀ m ∈ ms, ∀ s ∈ m.object.publics, s.name ≠ name
  /-- These are reported, each with the first module that asks for it. -/
  missing {text : String} : text ∈ l.errors.texts .undefinedExternal ↔
    ∃ name ∈ l.pullAll.wanted, ∃ m, ms.find? (·.asksFor name) = some m
      ∧ text = name ++ " (referenced by " ++ m.name ++ ")"
  /-- Nothing is reported twice. -/
  once : (l.errors.texts .undefinedExternal).Nodup
  /-- There is an error of this kind if a name is defined twice, by one module or by two. -/
  twice : l.errors.texts .duplicateSymbol ≠ [] ↔
    ∃ name, 2 ≤ ((ms.flatMap fun m => m.object.publics).map (·.name)).count name
  map {out : LinkOutput} (linked : l.link = .ok out) :
    out.map.Perm ((placed ms).flatMap fun m => m.object.publics.map (m.entry bases))
  sorted {out : LinkOutput} (linked : l.link = .ok out) :
    out.map.Pairwise fun a b => a.address < b.address ∨ a.address = b.address ∧ a.name < b.name

/-- Once a linker has pulled all that it can, what it says about the names of its modules is exact. -/
theorem Collects.resolves {bases : Bases} {ms : List NamedObject} (collects : Collects bases ms l.pullAll) :
    Resolves bases ms l := by
  obtain ⟨loading, others, reports⟩ := collects.exists_reports
  refine ⟨collects.modules, collects.mem_wanted_iff_asked, ?_, ?_, ?_, ?_, ?_⟩
  · intro text
    rw [reports.mem_undefinedExternal]
    constructor
    · rintro ⟨name, who, asked, rfl⟩
      obtain ⟨undefined, m, first, rfl⟩ := collects.wanted_iff.1 asked
      exact ⟨name, collects.mem_wanted_iff.2 ⟨undefined, m, first⟩, m, first, rfl⟩
    · rintro ⟨name, mem, m, first, rfl⟩
      have undefined := (collects.mem_wanted_iff.1 mem).1
      exact ⟨name, m.name, collects.wanted_iff.2 ⟨undefined, m, first, rfl⟩, rfl⟩
  · rw [errors_eq reports.recorded]
    exact Diagnostics.nodup_texts_recordAll rfl (fun c => by simp) _ _
  · rw [reports.duplicateSymbol_ne_nil]
    simp [List.nodup_iff_count, Nat.succ_le_iff]
  · intro out linked
    have map : l.finish.symbolMap = l.pullAll.symbolMap := by rw [symbolMap, l.finish_reports.1, symbolMap]
    rw [(eq_of_link linked).2, map]
    exact collects.perm_symbolMap (reports.nodup linked)
  · intro out linked
    rw [(eq_of_link linked).2]
    exact l.finish.pairwise_symbolMap

/-- A link is exact about names. The names it leaves open are those that some module asks for and none defines, and
it reports these, each once and with the first module that asks; it reports a double definition if and only if there
is one; and the map of a link that succeeds has one line for each public symbol, sorted. -/
theorem link_resolves (bases : Bases) (inputs : List Input) :
    ∃ pulls, PullsAll (load bases inputs) pulls (load bases inputs).pullAll
      ∧ Resolves bases (inputs.filterMap Input.module? ++ pulls.map Pull.named) (load bases inputs) := by
  obtain ⟨pulls, all⟩ := (load bases inputs).rounds_pullAll.exists_pulls
  have collects := (Collects.start bases).add ((adds_foldl_add _ inputs).append all.adds)
  rw [List.nil_append] at collects
  exact ⟨pulls, all, collects.resolves⟩

end Linker

end Asm65
