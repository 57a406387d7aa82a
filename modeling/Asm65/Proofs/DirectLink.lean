import Asm65.Proofs.LinkReport

/-!
# Linking without libraries

What a link comes to depends on the modules that it loads and on their order, not on where they come from. Given the
modules that the search of the libraries would find, after those that it starts from, a linker without libraries has
the same result, whether that is an output or a report.
-/

namespace Asm65.Linker
set_option autoImplicit false

/-- The linker without its libraries and what it told of its work: all that the result depends on. -/
def bare (l : Linker) : Linker := { l with shelves := [], journal := [] }

variable {l l' : Linker}

/-! ### Steps that do not look at libraries -/

/-- Steps that do without the libraries do so all together. -/
theorem bare_foldl {α : Type} {f : Linker → α → Linker} (step : ∀ l a, (f l a).bare = f l.bare a) (l : Linker)
    (as : List α) : (as.foldl f l).bare = as.foldl f l.bare := by
  induction as generalizing l with
  | nil => rfl
  | cons a rest ih => rw [List.foldl_cons, List.foldl_cons, ih, step]

/-- Patching neither looks at the libraries nor at what was told of the work. -/
theorem bare_patch (l : Linker) (space : Space) (offset : Nat) (value : UInt16) (part : Part) (relative : Bool)
    (module : String) :
    (l.patch space offset value part relative module).bare = l.bare.patch space offset value part relative module := by
  have same : l.bare.bases = l.bases ∧ l.bare.segments = l.segments := ⟨rfl, rfl⟩
  unfold patch
  dsimp only
  rw [same.1, same.2]
  cases patchBytes? (l.bases.get space + UInt16.ofNat offset) value part relative with
  | none => rfl
  | some bytes =>
    dsimp only
    by_cases fits : offset + bytes.length ≤ (l.segments.get space).size
    · rw [if_pos fits, if_pos fits]
      rfl
    · rw [if_neg fits, if_neg fits]
      rfl

theorem bare_define (l : Linker) (name : String) (value : UInt16) (space : Option Space) (module : String) :
    (l.define name value space module).bare = l.bare.define name value space module := by
  have same : l.bare.globals = l.globals := rfl
  unfold define
  rw [same]
  cases l.globals[name]? with
  | none => rfl
  | some g => cases g <;> rfl

theorem bare_applyUse (o : Object) (module : String) (offsets : PerSpace Nat) (l : Linker) (site value : Address) :
    (applyUse o module offsets l site value).bare = applyUse o module offsets l.bare site value := by
  unfold applyUse
  cases site.space? with
  | none => rfl
  | some space =>
    cases value.origin with
    | absolute => exact bare_patch ..
    | space => exact bare_patch ..
    | undefined => rfl
    | external id =>
      dsimp only
      cases o.symbolName? id <;> rfl

/-- A module is loaded alike with libraries and without. -/
theorem bare_addObject (l : Linker) (name : String) (o : Object) :
    (l.addObject name o).bare = (l.bare.addObject name o).bare := by
  unfold addObject
  dsimp only
  rw [bare_foldl (fun l use => bare_applyUse o name _ l use.1 use.2), bare_foldl (fun _ _ => rfl),
    bare_foldl (fun l s => bare_define l s.name _ _ name),
    bare_foldl (fun l use => bare_applyUse o name _ l use.1 use.2), bare_foldl (fun _ _ => rfl),
    bare_foldl (fun l s => bare_define l s.name _ _ name)]
  rfl

theorem bare_reportWanted (l : Linker) : l.reportWanted.bare = l.bare.reportWanted := by
  rw [reportWanted_eq, reportWanted_eq]
  rfl

theorem bare_applyFixup (l : Linker) (f : Fixup) : (l.applyFixup f).bare = l.bare.applyFixup f := by
  have same : l.bare.globals = l.globals := rfl
  unfold applyFixup
  rw [same]
  cases l.globals[f.name]? with
  | none => rfl
  | some g =>
    cases g with
    | wanted => rfl
    | defined => exact bare_patch ..

theorem bare_check (l : Linker) (c : Prop) [Decidable c] (cause : Cause) :
    (if c then l.record cause else l).bare = if c then l.bare.record cause else l.bare := by
  split <;> rfl

theorem bare_checkLayout (l : Linker) : l.checkLayout.bare = l.bare.checkLayout := by
  unfold checkLayout
  dsimp only
  have long (l : Linker) (e : Space × Nat × Nat) :
      (if e.2.2 > 0x10000 then l.record (.segmentTooLong e.1) else l).bare =
        if e.2.2 > 0x10000 then l.bare.record (.segmentTooLong e.1) else l.bare := bare_check ..
  by_cases zeroPage : l.bases.zeroPage.toNat + l.segments.zeroPage.size > 0x100
  · have same : l.bare.bases.zeroPage.toNat + l.bare.segments.zeroPage.size > 0x100 := zeroPage
    rw [if_pos zeroPage, if_pos same, bare_foldl (fun _ _ => rfl), bare_foldl long]
    rfl
  · have same : ¬ l.bare.bases.zeroPage.toNat + l.bare.segments.zeroPage.size > 0x100 := zeroPage
    rw [if_neg zeroPage, if_neg same, bare_foldl (fun _ _ => rfl), bare_foldl long]
    rfl

/-! ### The same modules -/

/-- Loading modules one after another, in linkers that differ in their libraries at most. -/
theorem Adds.bare_foldl_addObject {ms : List NamedObject} (adds : Adds l ms l') {k : Linker} (same : k.bare = l.bare) :
    (ms.foldl (fun k m => k.addObject m.name m.object) k).bare = l'.bare := by
  induction adds generalizing k with
  | nil => exact same
  | shelve _ _ _ ih => exact ih same
  | load _ ih =>
    refine ih ?_
    rw [bare_addObject, same, ← bare_addObject]

/-- Without libraries nothing is pulled. -/
theorem pullAll_eq_self (none : l.shelves = []) : l.pullAll = l := by
  obtain ⟨pulls, all⟩ := l.rounds_pullAll.exists_pulls
  generalize l.pullAll = r at all
  cases all with
  | nil => rfl
  | cons first _ =>
    have place := first.place_lt
    rw [none] at place
    exact (Nat.not_lt_zero _ place).elim

/-- What is left to do once all modules are loaded depends on the modules only. -/
theorem link_eq_of_bare_eq (same : l.pullAll.bare = l'.pullAll.bare) : l.link = l'.link := by
  have rest (p : Linker) : (p.reportWanted.fixups.foldl applyFixup p.reportWanted).checkLayout.bare =
      (p.bare.fixups.toList.foldl applyFixup p.bare.reportWanted).checkLayout := by
    have fixups : p.reportWanted.fixups = p.bare.fixups := by
      rw [reportWanted_eq]
      rfl
    rw [bare_checkLayout, ← Array.foldl_toList, bare_foldl bare_applyFixup, bare_reportWanted, fixups]
  have result (p : Linker) : p.result = p.bare.result := rfl
  have finished : l.finish.bare = l'.finish.bare := by
    unfold finish
    generalize l.pullAll = p, l'.pullAll = p' at same
    dsimp only
    rw [rest, rest, same]
  unfold link
  rw [result, finished, ← result]

/-- A module that is given explicitly. -/
def Input.ofModule (m : NamedObject) : Input := .object m.name m.object

/-- Where modules come from does not matter. With the modules that a link pulls from its libraries given after its
own ones, under the names they had and without any library, the result is the same, and if it is an output, it lists
exactly these modules. -/
theorem link_eq_link_of_modules (bases : Bases) (inputs : List Input) :
    ∃ pulls, PullsAll (load bases inputs) pulls (load bases inputs).pullAll
      ∧ (load bases ((inputs.filterMap Input.module? ++ pulls.map Pull.named).map Input.ofModule)).link =
          (load bases inputs).link
      ∧ ∀ out, (load bases inputs).link = .ok out →
          out.modules.toList = (inputs.filterMap Input.module? ++ pulls.map Pull.named).map (·.name) := by
  obtain ⟨pulls, all⟩ := (load bases inputs).rounds_pullAll.exists_pulls
  have adds := (adds_foldl_add { bases } inputs).append all.adds
  refine ⟨pulls, all, link_eq_of_bare_eq ?_, fun out linked => ?_⟩
  · have shelves :
        (load bases ((inputs.filterMap Input.module? ++ pulls.map Pull.named).map Input.ofModule)).shelves = [] := by
      rw [load, shelves_foldl_add]
      simp [Input.ofModule, Input.shelf?]
    rw [pullAll_eq_self shelves, load, List.foldl_map]
    exact adds.bare_foldl_addObject rfl
  · obtain ⟨clean, -, modules⟩ := of_link linked
    obtain ⟨-, -, -, -, finished⟩ := of_finish clean
    have collects := (Collects.start bases).add adds
    rw [modules, finished]
    exact collects.modules

/-- A module that defines `own` at its start and transfers control to `other` by the instruction `op`. -/
def passing (op : UInt8) (own other : String) : Object :=
  ({ segments := ⟨⟨#[op, 0, 0]⟩, .empty, .empty⟩ } : Object)
    |>.addSymbol { id := 1, name := own, address := .inSpace .code 0, isPublic := true }
    |>.addSymbol { id := 2, name := other, address := .external 2 }
    |>.addUse (.inSpace .code 1) (.external 2)

/-- Three modules in the order in which none finds what it asks for in those before it. -/
def chain : Library :=
  { objects := #[passing 0x4c "b" "c", passing 0x4c "c" "a", passing 0x4c "a" "b"]
    index := (∅ : Std.ExtTreeMap String UInt16 compare) |>.insert "a" 2 |>.insert "b" 0 |>.insert "c" 1 }

/-- A call of the last module of a library, which needs the first, which needs the second, which needs the last. -/
theorem link_eq_link_of_modules_chain :
    let inputs := [Input.library "lib" chain, .object "main" (passing 0x20 "main" "a")]
    ∃ (out : LinkOutput) (pulls : List Pull), (load ⟨0x1000, 0x2000, 0x80⟩ inputs).link = .ok out
      ∧ pulls.map Pull.module = ["lib[2]", "lib[0]", "lib[1]"]
      ∧ (load ⟨0x1000, 0x2000, 0x80⟩
          ((inputs.filterMap Input.module? ++ pulls.map Pull.named).map Input.ofModule)).link = .ok out
      ∧ out.modules.toList = ["main", "lib[2]", "lib[0]", "lib[1]"]
      ∧ out.segments.code.bytes = #[0x20, 0x03, 0x10, 0x4c, 0x06, 0x10, 0x4c, 0x09, 0x10, 0x4c, 0x03, 0x10] := by
  intro inputs
  obtain ⟨pulls, -, same, listed⟩ := link_eq_link_of_modules ⟨0x1000, 0x2000, 0x80⟩ inputs
  have linked : ((load ⟨0x1000, 0x2000, 0x80⟩ inputs).link.toOption.map fun out =>
      (out.modules.toList, out.segments.code.bytes)) =
        some (["main", "lib[2]", "lib[0]", "lib[1]"],
          #[0x20, 0x03, 0x10, 0x4c, 0x06, 0x10, 0x4c, 0x09, 0x10, 0x4c, 0x03, 0x10]) := by decide +kernel
  cases result : (load ⟨0x1000, 0x2000, 0x80⟩ inputs).link with
  | error errors =>
    rw [result] at linked
    cases linked
  | ok out =>
    rw [result] at linked same
    obtain ⟨modules, bytes⟩ := Prod.mk.inj (Option.some.inj linked)
    have names := (listed out result).symm.trans modules
    refine ⟨out, pulls, rfl, ?_, same, modules, bytes⟩
    rw [List.map_append, List.map_map] at names
    exact (List.cons.inj names).2

end Asm65.Linker
