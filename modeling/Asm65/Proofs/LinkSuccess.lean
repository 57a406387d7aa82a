import Asm65.Proofs.LibraryPull
import Asm65.Proofs.Resolution

/-!
# What a link without errors has done

Modules are laid out one after another. A linker that has recorded no error has written or kept every use of every
module, and each of its names stands for one public symbol. At the end nothing is left open, the fixups are written,
and the checks change nothing.
-/

namespace Asm65
set_option autoImplicit false

namespace Linker

/-! ### Loading all modules -/

/-- The linker has loaded the modules `ms`, in this order, and recorded no error. -/
structure Built (bases : Bases) (ms : List NamedObject) (l : Linker) : Prop extends Collects bases ms l where
  clean : l.diagnostics.isEmpty = true
  /-- What is written at once for a module lies in its own part of the segments. -/
  inside : ∀ m ∈ placed ms, ∀ w ∈ m.writes bases,
    w.offset + w.bytes.length ≤ m.offsets.get w.space + (m.object.segment w.space).size
  segments : l.segments = ((placed ms).flatMap (Placed.writes bases)).foldl Write.apply (laidOut ms)
  fixups : l.fixups.toList = (placed ms).flatMap Placed.fixups
  uses : ∀ m ∈ placed ms, ∀ use ∈ m.object.uses.toList, (m.write? bases use).isSome ∨ (m.fixup? use).isSome

namespace Built

theorem start (bases : Bases) : Built bases [] { bases } where
  toCollects := .start bases
  clean := rfl
  inside _ none := (List.not_mem_nil none).elim
  segments := rfl
  fixups := rfl
  uses _ none := (List.not_mem_nil none).elim

variable {bases : Bases} {ms ns : List NamedObject} {m : NamedObject} {l l' : Linker}

/-- No name is defined twice. -/
theorem nodup (built : Built bases ms l) : ((ms.flatMap fun m => m.object.publics).map (·.name)).Nodup := by
  obtain ⟨causes, recorded, -, double⟩ := built.reports
  have none : causes = [] := by
    have clean := built.clean
    rw [recorded, Diagnostics.isEmpty_recordAll] at clean
    exact clean.2
  rw [none] at double
  simpa using double

theorem fits (built : Built bases ms l) : ∀ w ∈ (placed ms).flatMap (Placed.writes bases), w.Fits (laidOut ms) := by
  intro w mem
  obtain ⟨m, loaded, written⟩ := List.mem_flatMap.1 mem
  exact Nat.le_trans (built.inside m loaded w written) (end_le_of_mem_placed loaded w.space)

/-- One more module that is loaded without error. -/
theorem load (built : Built bases ms l) (clean : l'.diagnostics.isEmpty = true) (enters : l.Enters m l')
    (loads : l.Loads ⟨m, (laidOut ms).map Segment.size⟩ l') : Built bases (ms ++ [m]) l' := by
  have collects := built.toCollects.load enters
  obtain rfl := built.sameBases
  have segments : l'.segments =
      ((placed (ms ++ [m])).flatMap (Placed.writes l.bases)).foldl Write.apply (laidOut (ms ++ [m])) := by
    rw [loads.segments, built.segments, Write.zipWith_append_foldl_apply built.fits, placed_append, laidOut_append,
      List.flatMap_append, List.foldl_append, List.flatMap_singleton]
  refine ⟨collects, clean, ?_, segments, ?_, ?_⟩
  · rw [placed_append, List.forall_mem_append, List.forall_mem_singleton]
    refine ⟨built.inside, fun w mem => ?_⟩
    have fits : w.offset + w.bytes.length ≤ (l'.segments.get w.space).size := loads.fits w mem
    rwa [collects.size, size_laidOut_append, ← PerSpace.get_map Segment.size] at fits
  · rw [loads.fixups, placed_append, List.flatMap_append, ← built.fixups, Array.toList_append, List.flatMap_singleton]
  · rw [placed_append, List.forall_mem_append, List.forall_mem_singleton]
    exact ⟨built.uses, loads.uses⟩

theorem add (built : Built bases ms l) (adds : Adds l ns l') (clean : l'.diagnostics.isEmpty = true) :
    Built bases (ms ++ ns) l' := by
  induction adds generalizing ms with
  | nil =>
    rw [List.append_nil]
    exact built
  | shelve shelves journal _ ih =>
    exact ih ⟨⟨built.sameBases, built.modules, built.size, built.names, built.reports⟩, built.clean, built.inside,
      built.segments, built.fixups, built.uses⟩ clean
  | @load l r m ns rest ih =>
    have one := rest.clean clean
    obtain ⟨-, loads⟩ := loads_addObject one
    rw [built.sizes] at loads
    have all := ih (built.load one (l.enters_addObject m) loads) clean
    rwa [List.append_assoc] at all

end Built

/-! ### The work at the end -/

variable {l : Linker}

/-- A fixup that causes no error is written, and its bytes fit; or its name has no value, and nothing is done. -/
theorem of_applyFixup {f : Fixup} (clean : (l.applyFixup f).diagnostics.isEmpty = true) :
    l.diagnostics.isEmpty = true
      ∧ ((∃ w, f.write? l.bases l.globals = some w ∧ w.Fits l.segments
            ∧ l.applyFixup f = { l with segments := w.apply l.segments })
        ∨ f.write? l.bases l.globals = none ∧ ¬ Defines l.globals f.name ∧ l.applyFixup f = l) := by
  have undefined (h : ∀ value space module, l.globals[f.name]? ≠ some (.defined value space module)) :
      ¬ Defines l.globals f.name := fun ⟨value, space, module, found⟩ => h value space module found
  unfold applyFixup at clean ⊢
  unfold Fixup.write?
  cases found : l.globals[f.name]? with
  | none =>
    rw [found] at clean undefined
    exact ⟨clean, .inr ⟨rfl, undefined nofun, rfl⟩⟩
  | some g =>
    rw [found] at clean undefined
    cases g with
    | wanted => exact ⟨clean, .inr ⟨rfl, undefined nofun, rfl⟩⟩
    | defined value space module =>
      obtain ⟨before, bytes, shown, fits, same⟩ := of_patch clean
      exact ⟨before, .inl ⟨_, congrArg (Option.map _) shown, fits, same⟩⟩

/-- Fixups that cause no error are all written, one after another, but for those whose names have no value. -/
theorem of_foldl_applyFixup {fs : List Fixup} (clean : (fs.foldl applyFixup l).diagnostics.isEmpty = true) :
    l.diagnostics.isEmpty = true
      ∧ (∀ f ∈ fs, Defines l.globals f.name → (f.write? l.bases l.globals).isSome)
      ∧ (∀ w ∈ fs.filterMap (Fixup.write? l.bases l.globals), w.Fits l.segments)
      ∧ fs.foldl applyFixup l =
          { l with segments := (fs.filterMap (Fixup.write? l.bases l.globals)).foldl Write.apply l.segments } := by
  induction fs generalizing l with
  | nil => exact ⟨clean, fun _ none => (List.not_mem_nil none).elim, fun _ none => (List.not_mem_nil none).elim, rfl⟩
  | cons f rest ih =>
    obtain ⟨first, others, fits, same⟩ := ih clean
    obtain ⟨before, ⟨w, written, room, step⟩ | ⟨skipped, undefined, step⟩⟩ := of_applyFixup first
    · rw [step] at fits others same
      rw [List.filterMap_cons_some written, List.foldl_cons, step]
      refine ⟨before, List.forall_mem_cons.2 ⟨fun _ => by rw [written]; rfl, others⟩,
        List.forall_mem_cons.2 ⟨room, fun w' mem => ?_⟩, same⟩
      exact (Write.fits_congr (Write.size_apply l.segments w)).1 (fits w' mem)
    · rw [step] at fits others same
      rw [List.filterMap_cons_none skipped, List.foldl_cons, step]
      exact ⟨before, List.forall_mem_cons.2 ⟨fun h => (undefined h).elim, others⟩, fits, same⟩

/-- Steps that do nothing but record errors have done nothing if there are none. -/
theorem foldl_eq_of_clean {α : Type} {f : Linker → α → Linker}
    (step : ∀ l a, (f l a).diagnostics.isEmpty = true → f l a = l) {as : List α}
    (clean : (as.foldl f l).diagnostics.isEmpty = true) : as.foldl f l = l ∧ ∀ a ∈ as, f l a = l := by
  induction as generalizing l with
  | nil => exact ⟨rfl, fun _ none => (List.not_mem_nil none).elim⟩
  | cons a rest ih =>
    obtain ⟨same, others⟩ := ih clean
    have clean : (f l a).diagnostics.isEmpty = true := by
      rw [← same]
      exact clean
    have unchanged := step l a clean
    rw [unchanged] at same others
    rw [List.foldl_cons, unchanged]
    exact ⟨same, List.forall_mem_cons.2 ⟨unchanged, others⟩⟩

theorem record_ne_clean {cause : Cause} {p : Prop} (h : (l.record cause).diagnostics.isEmpty = true) : p := by
  cases (Diagnostics.isEmpty_record ..).symm.trans h

theorem of_check {c : Prop} [Decidable c] {cause : Cause}
    (h : (if c then l.record cause else l).diagnostics.isEmpty = true) : (if c then l.record cause else l) = l := by
  by_cases wrong : c
  · rw [if_pos wrong] at h
    exact record_ne_clean h
  · exact if_neg wrong

theorem of_reportWanted (clean : l.reportWanted.diagnostics.isEmpty = true) :
    l.reportWanted = l ∧ ∀ {name : String} {g : Global}, l.globals[name]? = some g → g.isWanted = false := by
  unfold reportWanted at clean ⊢
  obtain ⟨same, each⟩ := foldl_eq_of_clean (fun l e h => by
    obtain ⟨name, g⟩ := e
    cases g with
    | wanted => exact record_ne_clean h
    | defined => rfl) clean
  refine ⟨same, fun {name g} found => ?_⟩
  cases g with
  | wanted module =>
    have unchanged := each (name, .wanted module) (Std.ExtTreeMap.mem_toList_iff_getElem?_eq_some.2 found)
    rw [same, ← unchanged] at clean
    exact record_ne_clean clean
  | defined => rfl

theorem of_checkLayout (clean : l.checkLayout.diagnostics.isEmpty = true) : l.checkLayout = l := by
  unfold checkLayout at clean ⊢
  dsimp only at clean ⊢
  obtain ⟨overlapping, -⟩ := foldl_eq_of_clean (fun l e h => record_ne_clean h) clean
  rw [overlapping] at clean ⊢
  obtain ⟨long, -⟩ := foldl_eq_of_clean (fun l e h => of_check h) clean
  rw [long] at clean ⊢
  exact of_check clean

/-- A link that succeeds loaded everything without errors and left nothing open, and all that it did to the segments
afterwards was to write the fixups. -/
theorem of_finish (clean : l.finish.diagnostics.isEmpty = true) :
    l.pullAll.diagnostics.isEmpty = true
      ∧ (∀ {name : String} {g : Global}, l.pullAll.globals[name]? = some g → g.isWanted = false)
      ∧ (∀ f ∈ l.pullAll.fixups.toList, Defines l.pullAll.globals f.name →
          (f.write? l.pullAll.bases l.pullAll.globals).isSome)
      ∧ (∀ w ∈ l.pullAll.fixups.toList.filterMap (Fixup.write? l.pullAll.bases l.pullAll.globals),
          w.Fits l.pullAll.segments)
      ∧ l.finish = { l.pullAll with
          segments := (l.pullAll.fixups.toList.filterMap (Fixup.write? l.pullAll.bases l.pullAll.globals)).foldl
            Write.apply l.pullAll.segments } := by
  unfold finish at clean ⊢
  generalize l.pullAll = p at clean ⊢
  dsimp only at clean ⊢
  have laid := of_checkLayout clean
  rw [laid] at clean ⊢
  rw [← Array.foldl_toList] at clean ⊢
  obtain ⟨reported, written, fits, same⟩ := of_foldl_applyFixup clean
  obtain ⟨unchanged, known⟩ := of_reportWanted reported
  rw [unchanged] at reported written fits same ⊢
  exact ⟨reported, known, written, fits, same⟩

theorem eq_of_link {out : LinkOutput} (linked : l.link = .ok out) :
    l.finish.diagnostics.isEmpty = true
      ∧ out = ⟨l.finish.segments, l.finish.bases, l.finish.symbolMap, l.finish.modules⟩ := by
  unfold link at linked
  generalize l.finish = finished at linked ⊢
  unfold result at linked
  split at linked
  · rename_i clean
    exact ⟨clean, (Except.ok.inj linked).symm⟩
  · cases linked

theorem of_link {out : LinkOutput} (linked : l.link = .ok out) :
    l.finish.diagnostics.isEmpty = true ∧ out.segments = l.finish.segments ∧ out.modules = l.finish.modules := by
  obtain ⟨clean, same⟩ := eq_of_link linked
  generalize l.finish = finished at clean same ⊢
  subst same
  exact ⟨clean, rfl, rfl⟩

end Linker

end Asm65
