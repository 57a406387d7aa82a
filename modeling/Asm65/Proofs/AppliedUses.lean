import Asm65.Object.Codec
import Asm65.Proofs.LinkedImage
import Mathlib.Data.List.Forall2

/-!
# Which uses a link applies

A link that succeeds has written over the place of every use the final value of what is used there, with one
exception. An external use whose symbol is neither external nor provided by its own module asks for nothing, so a name
that no module provides is not reported, and the use is passed over. In a file such a symbol has an undefined address.
-/

namespace Asm65
set_option autoImplicit false

/-! ### Objects that are read -/

namespace Binary

/-- What holds of everything that is read holds of all elements of a collection. -/
theorem forall_mem_of_repeated {α : Type} {read : Read α} {p : α → Prop} (each : ∀ {r r' a}, read r = .ok a r' → p a) {n : Nat}
    {acc as : Array α} (before : ∀ a ∈ acc, p a) {r r' : Reader} (h : repeated read n acc r = .ok as r') :
    ∀ a ∈ as, p a := by
  induction n generalizing acc r with
  | zero =>
    cases h
    exact before
  | succ n ih =>
    obtain ⟨a, s, first, rest⟩ := exists_of_bind_eq_ok h
    refine ih (fun b mem => ?_) rest
    rcases Array.mem_push.1 mem with old | rfl
    · exact before b old
    · exact each first

end Binary

namespace Object
open Binary

/-- Every symbol is visible to other modules, unless it stands for one of theirs. -/
def PublicUnlessExternal (o : Object) : Prop :=
  ∀ {id : SymbolId} {s : Symbol}, o.symbols[id]? = some s → s.isPublic = !s.address.isExternal

theorem isPublic_of_decodeSymbol {r r' : Reader} {s : Symbol} (h : decodeSymbol r = .ok s r') :
    s.isPublic = !s.address.isExternal := by
  obtain ⟨id, _, -, h⟩ := exists_of_bind_eq_ok h
  obtain ⟨name, _, -, h⟩ := exists_of_bind_eq_ok h
  obtain ⟨address, _, -, h⟩ := exists_of_bind_eq_ok h
  cases h
  rfl

/-- What holds of all symbols listed holds of those in the table. -/
theorem of_foldl_insert {p : Symbol → Prop} {listed : List Symbol} (each : ∀ s ∈ listed, p s)
    {table : Std.ExtTreeMap SymbolId Symbol compare} (before : ∀ {id : SymbolId} {s}, table[id]? = some s → p s)
    {id : SymbolId} {s : Symbol} (found : (listed.foldl (fun m s => m.insert s.id s) table)[id]? = some s) : p s := by
  induction listed generalizing table with
  | nil => exact before found
  | cons first rest ih =>
    rw [List.forall_mem_cons] at each
    refine ih each.2 (fun {id s} found => ?_) found
    rw [Std.ExtTreeMap.getElem?_insert] at found
    split at found
    · cases found
      exact each.1
    · exact before found

/-- Whatever is read as an object, from a file of its own or from a library, has no symbol of its own that is not public. -/
theorem publicUnlessExternal_of_decode {r r' : Reader} {o : Object} (h : decode r = .ok o r') : o.PublicUnlessExternal := by
  obtain ⟨v, _, -, h⟩ := exists_of_bind_eq_ok h
  split at h
  · cases h
  · obtain ⟨code, _, -, h⟩ := exists_of_bind_eq_ok h
    obtain ⟨data, _, -, h⟩ := exists_of_bind_eq_ok h
    obtain ⟨zeroPage, _, -, h⟩ := exists_of_bind_eq_ok h
    obtain ⟨n, _, -, h⟩ := exists_of_bind_eq_ok h
    obtain ⟨listed, _, symbols, h⟩ := exists_of_bind_eq_ok h
    obtain ⟨k, _, -, h⟩ := exists_of_bind_eq_ok h
    obtain ⟨used, _, -, h⟩ := exists_of_bind_eq_ok h
    cases h
    have each := forall_mem_of_repeated (p := fun s : Symbol => s.isPublic = !s.address.isExternal)
      isPublic_of_decodeSymbol (by simp) symbols
    intro id s found
    rw [← Array.foldl_toList] at found
    exact of_foldl_insert (fun s mem => each s (Array.mem_toList_iff.1 mem))
      (fun none => by rw [Std.ExtTreeMap.getElem?_empty] at none; cases none) found

end Object

/-! ### Uses that are written, and uses that are not -/

section

variable {α β : Type}

theorem forall₂_filterMap {f : α → Option β} {R : α → β → Prop} {l : List α}
    (related : ∀ a ∈ l, ∀ b, f a = some b → R a b) : List.Forall₂ R (l.filter fun a => (f a).isSome) (l.filterMap f) := by
  induction l with
  | nil => exact .nil
  | cons a rest ih =>
    rw [List.forall_mem_cons] at related
    cases found : f a with
    | none =>
      rw [List.filterMap_cons_none found, List.filter_cons_of_neg (by simp [found])]
      exact ih related.2
    | some b =>
      rw [List.filterMap_cons_some found, List.filter_cons_of_pos (by simp [found])]
      exact .cons (related.1 b found) (ih related.2)

/-- Of two functions that give results for different elements: the elements of the first, of the second, and of
neither. -/
theorem perm_filter_isSome {f g : α → Option β} (apart : ∀ a, (g a).isSome → f a = none) (l : List α) :
    ((l.filter fun a => (f a).isSome) ++ (l.filter fun a => (g a).isSome)
      ++ l.filter fun a => !(g a).isSome && !(f a).isSome).Perm l := by
  have second : (l.filter fun a => (g a).isSome) = (l.filter fun a => !(f a).isSome).filter fun a => (g a).isSome := by
    rw [List.filter_filter]
    refine List.filter_congr fun a _ => ?_
    cases found : (g a).isSome with
    | false => rfl
    | true => rw [apart a found]; rfl
  rw [second, ← List.filter_filter, List.append_assoc]
  exact ((List.filter_append_perm _ _).append_left _).trans (List.filter_append_perm _ l)

end

namespace Linker

/-- All uses of modules `ms`, each with its module. -/
def placedUses (ms : List NamedObject) : List (Placed × Address × Address) :=
  (placed ms).flatMap fun m => m.object.uses.toList.map (m, ·)

/-- A use that no value is found for and that nobody reports: it is external, its symbol is not, and no module of the
link provides the name, not even its own. -/
def PassedOver (ms : List NamedObject) (m : Placed) (value : Address) : Prop :=
  ∃ id symbol, value.origin = .external id ∧ m.object.symbols[id]? = some symbol ∧ symbol.address.isExternal = false
    ∧ (∀ d ∈ ms, ∀ s ∈ d.object.publics, s.name ≠ symbol.name)

variable {bases : Bases} {ms : List NamedObject} {m : Placed} {l : Linker}

theorem mem_placedUses {use : Address × Address} :
    (m, use) ∈ placedUses ms ↔ m ∈ placed ms ∧ use ∈ m.object.uses.toList := by
  simp only [placedUses, List.mem_flatMap, List.mem_map, Prod.mk.injEq]
  constructor
  · rintro ⟨_, loaded, _, used, rfl, rfl⟩
    exact ⟨loaded, used⟩
  · rintro ⟨loaded, used⟩
    exact ⟨m, loaded, use, used, rfl, rfl⟩

theorem flatMap_writes_eq : (placed ms).flatMap (Placed.writes bases) =
    (placedUses ms).filterMap fun use => use.1.write? bases use.2 := by
  unfold placedUses Placed.writes
  simp only [List.filterMap_flatMap, List.filterMap_map, Function.comp_def]

theorem flatMap_fixups_eq : (placed ms).flatMap Placed.fixups =
    (placedUses ms).filterMap fun use => use.1.fixup? use.2 := by
  unfold placedUses Placed.fixups
  simp only [List.filterMap_flatMap, List.filterMap_map, Function.comp_def]

/-- A use that nothing is written for is passed over. -/
theorem Built.passedOver (built : Built bases ms l)
    (complete : ∀ {name : String} {g : Global}, l.globals[name]? = some g → g.isWanted = false)
    (written : ∀ f ∈ l.fixups.toList, Defines l.globals f.name → (f.write? bases l.globals).isSome)
    (loaded : m ∈ placed ms) {use : Address × Address} (used : use ∈ m.object.uses.toList)
    (now : m.write? bases use = none) (later : (m.fixup? use).bind (Fixup.write? bases l.globals) = none) :
    PassedOver ms m use.2 := by
  have kept : (m.fixup? use).isSome := (built.uses m loaded use used).resolve_left (by rw [now]; exact Bool.false_ne_true)
  obtain ⟨f, kept⟩ := Option.isSome_iff_exists.1 kept
  rw [kept, Option.bind_some] at later
  have mem : f ∈ l.fixups.toList := by
    rw [built.fixups]
    exact List.mem_flatMap.2 ⟨m, loaded, List.mem_filterMap.2 ⟨use, used, kept⟩⟩
  have undefined : ¬ Defines l.globals f.name := fun defined => by
    have some := written f mem defined
    rw [later] at some
    cases some
  obtain ⟨id, -, origin, named, -⟩ := of_fixup? kept
  obtain ⟨symbol, found, name⟩ := Option.map_eq_some_iff.1 named
  rw [← name] at undefined
  refine ⟨id, symbol, origin, found, ?_, fun d loaded s provides same => ?_⟩
  · cases external : symbol.address.isExternal with
    | false => rfl
    | true => exact (undefined (built.defines complete (mem_of_mem_placed loaded) found external)).elim
  · exact undefined (built.defines_iff.2 ⟨d, loaded, s, provides, same⟩)

/-- In an object that was read the symbol of a use that is passed over has an undefined address. -/
theorem PassedOver.isUndefined {value : Address} (h : PassedOver ms m value) (loaded : m ∈ placed ms)
    (disclosed : m.object.PublicUnlessExternal) : ∃ id symbol, value.origin = .external id
      ∧ m.object.symbols[id]? = some symbol ∧ symbol.address.isUndefined = true := by
  obtain ⟨id, symbol, origin, found, notExternal, unprovided⟩ := h
  refine ⟨id, symbol, origin, found, ?_⟩
  cases undefined : symbol.address.isUndefined with
  | true => rfl
  | false =>
    have isPublic : symbol.isPublic = true := by rw [disclosed found, notExternal]; rfl
    have provided : symbol.isProvided = true := by rw [Symbol.isProvided, isPublic, notExternal, undefined]; rfl
    have mem : symbol ∈ m.object.publics := List.mem_filter.2 ⟨(OrderedMap.mem_values _).2 ⟨id, found⟩, provided⟩
    exact (unprovided m.toNamedObject (mem_of_mem_placed loaded) symbol mem rfl).elim

theorem PassedOver.not_finalValue {value : Address} (h : PassedOver ms m value) (v : UInt16) :
    ¬ FinalValue bases ms m value v := by
  obtain ⟨id, symbol, origin, found, -, unprovided⟩ := h
  intro final
  cases final with
  | constant origin' | own origin' => cases origin.symm.trans origin'
  | imported origin' named loaded isPublic =>
    cases origin.symm.trans origin'
    rw [Object.symbolName?, found] at named
    exact unprovided _ (mem_of_mem_placed loaded) _ isPublic (Option.some.inj named).symm

/-- What a link has done with the uses of modules `ms`: it has applied some, one write for each, and passed over the
others. -/
structure Applies (bases : Bases) (ms : List NamedObject) (applied passed : List (Placed × Address × Address))
    (writes : List Write) (segments : PerSpace Segment) : Prop where
  all : (applied ++ passed).Perm (placedUses ms)
  /-- Each write puts the final value of its use in the place of the use. -/
  fills : List.Forall₂ (fun use w => Fills bases ms use.1 use.2 w ∧ w.Fits (laidOut ms)) applied writes
  segments : segments = writes.foldl Write.apply (laidOut ms)
  passedOver {m : Placed} {site value : Address} (h : (m, site, value) ∈ passed) :
    PassedOver ms m value ∧ ∀ v, ¬ FinalValue bases ms m value v
  /-- No other symbol that is read from a file lets a use of it be passed over. -/
  undefined {m : Placed} {site value : Address} (h : (m, site, value) ∈ passed) {r r' : Binary.Reader}
    (read : Object.decode r = .ok m.object r') :
    ∃ id symbol, value.origin = .external id ∧ m.object.symbols[id]? = some symbol ∧ symbol.address.isUndefined = true

/-- Once no name is wanted, each use of the modules has been written at once or by its fixup, or is passed over. -/
theorem Built.applies (built : Built bases ms l)
    (complete : ∀ {name : String} {g : Global}, l.globals[name]? = some g → g.isWanted = false)
    (written : ∀ f ∈ l.fixups.toList, Defines l.globals f.name → (f.write? bases l.globals).isSome)
    (fits : ∀ w ∈ l.fixups.toList.filterMap (Fixup.write? bases l.globals), w.Fits l.segments) :
    ∃ applied passed writes, Applies bases ms applied passed writes
      ((l.fixups.toList.filterMap (Fixup.write? bases l.globals)).foldl Write.apply l.segments) := by
  have fits (w : Write) (mem : w ∈ l.fixups.toList.filterMap (Fixup.write? bases l.globals)) : w.Fits (laidOut ms) := by
    refine (Write.fits_congr fun s => ?_).1 (fits w mem)
    rw [built.segments, Write.size_foldl_apply]
  have fitsNow := built.fits
  rw [built.fixups, flatMap_fixups_eq, List.filterMap_filterMap] at fits ⊢
  rw [flatMap_writes_eq] at fitsNow
  rw [built.segments, flatMap_writes_eq, ← List.foldl_append]
  have passed {m : Placed} {site value : Address}
      (h : (m, site, value) ∈ (placedUses ms).filter fun use =>
        !((use.1.fixup? use.2).bind (Fixup.write? bases l.globals)).isSome && !(use.1.write? bases use.2).isSome) :
      m ∈ placed ms ∧ PassedOver ms m value := by
    obtain ⟨mem, none⟩ := List.mem_filter.1 h
    obtain ⟨loaded, used⟩ := mem_placedUses.1 mem
    rw [Bool.and_eq_true, Bool.not_eq_true', Bool.not_eq_true', Option.isSome_eq_false_iff, Option.isSome_eq_false_iff,
      Option.isNone_iff_eq_none, Option.isNone_iff_eq_none] at none
    exact ⟨loaded, built.passedOver complete written loaded used none.2 none.1⟩
  refine ⟨_, _, _, perm_filter_isSome (fun use later => ?_) (placedUses ms), List.rel_append ?_ ?_, rfl,
    fun h => ⟨(passed h).2, (passed h).2.not_finalValue⟩, ?_⟩
  · obtain ⟨w, found⟩ := Option.isSome_iff_exists.1 later
    obtain ⟨f, kept, -⟩ := Option.bind_eq_some_iff.1 found
    exact write?_of_fixup? kept
  · exact forall₂_filterMap fun use mem w found => ⟨fills_write? found, fitsNow w (List.mem_filterMap.2 ⟨use, mem, found⟩)⟩
  · refine forall₂_filterMap fun use mem w found => ⟨?_, fits w (List.mem_filterMap.2 ⟨use, mem, found⟩)⟩
    obtain ⟨f, kept, shown⟩ := Option.bind_eq_some_iff.1 found
    exact fills_fixup? built kept shown
  · intro m site value h r r' read
    obtain ⟨loaded, skipped⟩ := passed h
    exact skipped.isUndefined loaded (Object.publicUnlessExternal_of_decode read)

/-- A link that succeeds has written the final value of every use of every module it loaded, but for external uses of
symbols that neither ask for a value nor have one. In modules that were read from files, those are the symbols with
undefined addresses. -/
theorem link_applies_uses {inputs : List Input} {out : LinkOutput} (linked : (load bases inputs).link = .ok out) :
    ∃ pulls, PullsAll (load bases inputs) pulls (load bases inputs).pullAll
      ∧ ∃ applied passed writes,
          Applies bases (inputs.filterMap Input.module? ++ pulls.map Pull.named) applied passed writes out.segments := by
  obtain ⟨finished, segments, -⟩ := of_link linked
  obtain ⟨clean, complete, written, fits, result⟩ := of_finish finished
  obtain ⟨pulls, all⟩ := (load bases inputs).rounds_pullAll.exists_pulls
  have built := (Built.start bases).add ((adds_foldl_add _ inputs).append all.adds) clean
  rw [List.nil_append] at built
  have same : (load bases inputs).pullAll.bases = bases := built.sameBases
  rw [same] at written fits result
  refine ⟨pulls, all, ?_⟩
  rw [segments, result]
  exact built.applies complete written fits

/-- `jsr X`, where the address of `X` is undefined. -/
def unanswered : Object :=
  ({ segments := ⟨⟨#[0x20, 0x00, 0x00]⟩, .empty, .empty⟩ } : Object)
    |>.addSymbol { id := 1, name := "X", address := .undefined, isPublic := true }
    |>.addUse (.inSpace .code 1) (.external 1)

/-- The call of one module is answered from a library, that of the other is passed over. -/
theorem link_applies_uses_but_one :
    let bases : Bases := ⟨0x1000, 0x2000, 0⟩
    let inputs : List Input := [.library "lib" calleeLibrary, .object "main" caller, .object "a" unanswered]
    ∃ out pulls, (load bases inputs).link = .ok out ∧ PullsAll (load bases inputs) pulls (load bases inputs).pullAll
      ∧ out.segments.code = ⟨#[0x20, 0x08, 0x10, 0xd0, 0xfb, 0x20, 0x00, 0x00, 0x60]⟩
      ∧ ∃ applied passed writes,
          Applies bases (⟨"main", caller⟩ :: ⟨"a", unanswered⟩ :: pulls.map Pull.named) applied passed writes
            out.segments := by
  intro bases inputs
  have succeeds : ((load bases inputs).link.toOption.any fun out =>
      out.segments.code == ⟨#[0x20, 0x08, 0x10, 0xd0, 0xfb, 0x20, 0x00, 0x00, 0x60]⟩) = true := by
    decide +kernel
  cases linked : (load bases inputs).link with
  | error => rw [linked] at succeeds; cases succeeds
  | ok out =>
    rw [linked] at succeeds
    obtain ⟨pulls, all, applies⟩ := link_applies_uses linked
    exact ⟨out, pulls, rfl, all, beq_iff_eq.1 succeeds, applies⟩

/-- The only module of the link is read from a file, no symbol of the name is provided, and the link succeeds with the
use as it was. -/
theorem link_passes_over_use :
    ((load ⟨0x1000, 0x2000, 0⟩ [.object "a" unanswered]).link.toOption.map fun out => (out.segments.get .code).bytes) =
        some #[0x20, 0x00, 0x00]
      ∧ unanswered.uses[Address.inSpace .code 1]? = some (.external 1) ∧ unanswered.symbolName? 1 = some "X"
      ∧ unanswered.publics = []
      ∧ (Object.ofBytes [0x01, 0x00, 0x03, 0x00, 0x20, 0x00, 0x00, 0x00, 0x00, 0x00, 0x00, 0x01, 0x00, 0x01, 0x00, 0x01,
          0x00, 0x58, 0xff, 0x00, 0x00, 0x00, 0x01, 0x00, 0x01, 0x01, 0x00, 0x00, 0x04, 0x00, 0x00, 0x01, 0x00,
          0x00]).toOption = some unanswered := by
  decide +kernel

end Linker

end Asm65
