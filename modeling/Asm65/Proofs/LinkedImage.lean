import Asm65.Proofs.Footprint
import Asm65.Proofs.LinkSuccess
import Asm65.Proofs.OrderedMap
import Mathlib.Data.List.Nodup

/-!
# The linked segments

A link without errors is the modules' segments one after another, with the final value written over the place of
each use and all other bytes kept.
-/

namespace Asm65
set_option autoImplicit false

namespace Linker

/-- The final value of an address of module `m`: of a constant its value, of an address in a space of the module
where it ends up, of an external name the final value of the public symbol of this name, and what is added to it. -/
inductive FinalValue (bases : Bases) (ms : List NamedObject) : Placed → Address → UInt16 → Prop where
  | constant {m : Placed} {a : Address} (origin : a.origin = .absolute) : FinalValue bases ms m a a.value
  | own {m : Placed} {a : Address} {s : Space} (origin : a.origin = .space s) :
    FinalValue bases ms m a (bases.get s + UInt16.ofNat (m.offsets.get s) + a.value)
  | imported {m d : Placed} {a : Address} {id : SymbolId} {symbol : Symbol} {v : UInt16}
    (origin : a.origin = .external id) (named : m.object.symbolName? id = some symbol.name) (loaded : d ∈ placed ms)
    (isPublic : symbol ∈ d.object.publics) (value : FinalValue bases ms d symbol.address v) :
    FinalValue bases ms m a (v + a.value)

/-- The bytes at `site` that stand for a final value: its low and high byte, one of them, or the distance from the
next byte, which a signed byte can hold. -/
inductive Shows (site value : UInt16) : Address → List UInt8 → Prop where
  | distance {a : Address} {b : UInt8} (relative : a.relative = true)
    (signed : (value - (site + 1)).toInt16.toInt = b.toInt8.toInt) : Shows site value a [b]
  | word {a : Address} {low high : UInt8} (absolute : a.relative = false) (part : a.part = .word)
    (sum : value.toNat = low.toNat + 256 * high.toNat) : Shows site value a [low, high]
  | low {a : Address} {b : UInt8} (absolute : a.relative = false) (part : a.part = .low)
    (rest : b.toNat = value.toNat % 256) : Shows site value a [b]
  | high {a : Address} {b : UInt8} (absolute : a.relative = false) (part : a.part = .high)
    (quotient : b.toNat = value.toNat / 256) : Shows site value a [b]

theorem Shows.length_eq {site value : UInt16} {a : Address} {bytes : List UInt8} (h : Shows site value a bytes) :
    bytes.length = a.footprint := by
  unfold Address.footprint
  cases h with
  | distance relative => simp [relative]
  | word absolute part => simp [absolute, part]
  | low absolute part => simp [absolute, part]
  | high absolute part => simp [absolute, part]

theorem toNat_shiftRight_eight (v : UInt16) : (v >>> 8).toNat = v.toNat / 256 := by
  rw [UInt16.toNat_shiftRight]
  exact Nat.shiftRight_eq_div_pow v.toNat 8

theorem toNat_low (v : UInt16) : (Part.low.apply v).toUInt8.toNat = v.toNat % 256 := by
  have masked : (v &&& 0xff).toNat = v.toNat % 256 := by
    rw [UInt16.toNat_and]
    exact Nat.and_two_pow_sub_one_eq_mod v.toNat 8
  rw [Part.apply, UInt16.toNat_toUInt8, masked]
  omega

theorem toNat_high (v : UInt16) : (v >>> 8).toUInt8.toNat = v.toNat / 256 := by
  have bound := v.toNat_lt
  rw [UInt16.toNat_toUInt8, toNat_shiftRight_eight]
  omega

/-- A word that is a small signed number is the same number as a byte. -/
theorem toInt_toUInt8 {d : UInt16} (near : d.toNat < 0x80 ∨ 0xff80 ≤ d.toNat) :
    d.toInt16.toInt = d.toUInt8.toInt8.toInt := by
  have bound := d.toNat_lt
  have word : d.toInt16.toBitVec.toNat = d.toNat := rfl
  have byte : d.toUInt8.toInt8.toBitVec.toNat = d.toNat % 256 := UInt16.toNat_toUInt8 d
  rw [Int16.toInt, Int8.toInt, BitVec.toInt_eq_toNat_bmod, BitVec.toInt_eq_toNat_bmod, word, byte]
  simp only [Int.bmod]
  omega

/-- The bytes of a patch stand for its value, in whichever part was asked for. -/
theorem shows_of_patchBytes? {site value : UInt16} {a : Address} {bytes : List UInt8}
    (h : patchBytes? site value a.part a.relative = some bytes) : Shows site value a bytes := by
  unfold patchBytes? at h
  split at h
  · rename_i relative
    dsimp only at h
    split at h
    · rename_i near
      cases h
      rw [Bool.or_eq_true, decide_eq_true_eq, decide_eq_true_eq] at near
      exact .distance relative (toInt_toUInt8 near)
    · cases h
  · rename_i absolute
    rw [Bool.not_eq_true] at absolute
    split at h
    · rename_i part
      cases h
      refine .word absolute part ?_
      rw [toNat_high, UInt16.toNat_toUInt8]
      omega
    · rename_i part
      cases h
      cases which : a.part with
      | word => exact (part which).elim
      | low => exact .low absolute which (toNat_low value)
      | high => exact .high absolute which (toNat_high value)

/-- The linked segments of modules `ms`. -/
structure Relocated (bases : Bases) (ms : List NamedObject) (segments : PerSpace Segment) : Prop where
  size (s : Space) : (segments.get s).size = ((laidOut ms).get s).size
  /-- No address has two final values. -/
  unique {m : Placed} {a : Address} {v v' : UInt16} (h : FinalValue bases ms m a v) (h' : FinalValue bases ms m a v') :
    v = v'
  /-- The bytes of every use stand for the final value. -/
  patched {m : Placed} (loaded : m ∈ placed ms) {site value : Address} (used : m.object.uses[site]? = some value) :
    ∃ s v bytes, site.space? = some s ∧ FinalValue bases ms m value v
      ∧ Shows (bases.get s + UInt16.ofNat (m.offset s site)) v value bytes
      ∧ ∀ j < bytes.length, (segments.get s).bytes[m.offset s site + j]? = bytes[j]?
  /-- All other bytes are those of the modules. -/
  kept {s : Space} {i : Nat}
    (free : ∀ m ∈ placed ms, ∀ site value : Address, m.object.uses[site]? = some value → site.space? = some s →
      ¬ (m.offset s site ≤ i ∧ i < m.offset s site + value.footprint)) :
    (segments.get s).bytes[i]? = ((laidOut ms).get s).bytes[i]?

/-! ### Final values -/

theorem finalValue_relocate {bases : Bases} {ms : List NamedObject} {m : Placed} {a : Address}
    (external : a.isExternal = false) (undefined : a.isUndefined = false) :
    FinalValue bases ms m a (relocate bases m.offsets a) := by
  unfold relocate Address.space?
  cases origin : a.origin with
  | absolute => exact .constant origin
  | space s => exact .own origin
  | external id => simp [Address.isExternal, origin] at external
  | undefined => simp [Address.isUndefined, origin] at undefined

/-- Of all modules and their public symbols, one at most has a name. -/
theorem eq_of_nodup_names {α : Type} {f : α → List Symbol} {l : List α}
    (nodup : ((l.flatMap f).map (·.name)).Nodup) {a b : α} (ha : a ∈ l) (hb : b ∈ l) {s t : Symbol} (hs : s ∈ f a)
    (ht : t ∈ f b) (same : s.name = t.name) : a = b ∧ s = t := by
  have pairs : (l.flatMap f).map (·.name) = (l.flatMap fun a => (f a).map fun s => (a, s)).map (·.2.name) := by
    simp [List.map_flatMap, Function.comp_def]
  have pair {a : α} (mem : a ∈ l) {s : Symbol} (own : s ∈ f a) : (a, s) ∈ l.flatMap fun a => (f a).map fun s => (a, s) :=
    List.mem_flatMap.2 ⟨a, mem, List.mem_map.2 ⟨s, own, rfl⟩⟩
  rw [pairs] at nodup
  exact Prod.mk.inj (List.inj_on_of_nodup_map nodup (pair ha hs) (pair hb ht) same)

section

variable {bases : Bases} {ms : List NamedObject} {m : Placed}

/-- If no two public symbols have the same name, an address has one final value. -/
theorem FinalValue.unique (nodup : ((ms.flatMap fun m => m.object.publics).map (·.name)).Nodup) {a : Address}
    {v v' : UInt16} (h : FinalValue bases ms m a v) (h' : FinalValue bases ms m a v') : v = v' := by
  have nodup : (((placed ms).flatMap fun m => m.object.publics).map (·.name)).Nodup := by
    rw [← map_toNamedObject_place (.const 0) ms, List.flatMap_map] at nodup
    exact nodup
  induction h generalizing v' with
  | constant origin => cases h' with
    | constant => rfl
    | own origin' | imported origin' => cases origin.symm.trans origin'
  | own origin => cases h' with
    | own origin' => cases origin.symm.trans origin'; rfl
    | constant origin' | imported origin' => cases origin.symm.trans origin'
  | imported origin named loaded isPublic _ ih => cases h' with
    | constant origin' | own origin' => cases origin.symm.trans origin'
    | imported origin' named' loaded' isPublic' value' =>
      cases origin.symm.trans origin'
      have name := Option.some.inj (named.symm.trans named')
      obtain ⟨rfl, rfl⟩ := eq_of_nodup_names nodup loaded loaded' isPublic isPublic' name
      rw [ih value']

/-! ### What is written for a use -/

/-- The write puts the final value of a use in its place. -/
structure Fills (bases : Bases) (ms : List NamedObject) (m : Placed) (use : Address × Address) (w : Write) : Prop where
  located : use.1.space? = some w.space
  offset : w.offset = m.offset w.space use.1
  shows : ∃ v, FinalValue bases ms m use.2 v ∧ Shows (bases.get w.space + UInt16.ofNat w.offset) v use.2 w.bytes

theorem Fills.length_eq {use : Address × Address} {w : Write} (h : Fills bases ms m use w) :
    w.bytes.length = use.2.footprint :=
  have ⟨_, _, shows⟩ := h.shows
  shows.length_eq

/-- What is written at once for a use is its final value, since it does not depend on other modules. -/
theorem fills_write? {use : Address × Address} {w : Write} (h : m.write? bases use = some w) : Fills bases ms m use w := by
  obtain ⟨site, value⟩ := use
  unfold Placed.write? at h
  dsimp only at h
  cases located : site.space? with
  | none => rw [located] at h; cases h
  | some space =>
    rw [located] at h
    -- only a constant or an address in a space gets here
    have known : value.isExternal = false ∧ value.isUndefined = false := by
      unfold Address.isExternal Address.isUndefined
      cases origin : value.origin with
      | absolute | space => exact ⟨rfl, beq_false_of_ne nofun⟩
      | external | undefined => rw [origin] at h; cases h
    have found : (patchBytes? (bases.get space + UInt16.ofNat (m.offset space site)) (relocate bases m.offsets value)
        value.part value.relative).map (⟨space, m.offset space site, ·⟩) = some w := by
      cases origin : value.origin <;> rw [origin] at h <;> first | exact h | cases h
    obtain ⟨bytes, shown, rfl⟩ := Option.map_eq_some_iff.1 found
    exact ⟨located, rfl, _, finalValue_relocate known.1 known.2, shows_of_patchBytes? shown⟩

/-- What a fixup says of its use. -/
theorem of_fixup? {use : Address × Address} {f : Fixup} (h : m.fixup? use = some f) :
    ∃ id, use.1.space? = some f.space ∧ use.2.origin = .external id ∧ m.object.symbolName? id = some f.name
      ∧ f = ⟨f.space, m.offset f.space use.1, f.name, use.2.value, use.2.part, use.2.relative, m.name⟩ := by
  unfold Placed.fixup? at h
  split at h
  · rename_i space id located origin
    obtain ⟨name, named, rfl⟩ := Option.map_eq_some_iff.1 h
    exact ⟨id, located, origin, named, rfl⟩
  · cases h

theorem write?_of_fixup? {use : Address × Address} {f : Fixup} (h : m.fixup? use = some f) : m.write? bases use = none := by
  obtain ⟨id, located, origin, -⟩ := of_fixup? h
  unfold Placed.write?
  rw [located, origin]

variable {l : Linker}

/-- What is written for a fixup is the final value of its use: the public symbol of this name, and what is added to
it. -/
theorem fills_fixup? (built : Built bases ms l) {use : Address × Address} {f : Fixup} {w : Write}
    (kept : m.fixup? use = some f) (h : f.write? bases l.globals = some w) : Fills bases ms m use w := by
  obtain ⟨id, located, origin, named, same⟩ := of_fixup? kept
  unfold Fixup.write? at h
  split at h
  · rename_i value space module found
    obtain ⟨d, loaded, s, isPublic, name, rfl⟩ := built.values found
    obtain ⟨bytes, shown, rfl⟩ := Option.map_eq_some_iff.1 h
    have provided : s.isProvided = true := (List.mem_filter.1 isPublic).2
    simp only [Symbol.isProvided, Bool.and_eq_true, Bool.not_eq_true'] at provided
    rw [← name] at named
    rw [same] at shown
    refine ⟨located, by rw [same], _, .imported origin named loaded isPublic
      (finalValue_relocate provided.1.2 provided.2), ?_⟩
    rw [same]
    exact shows_of_patchBytes? shown
  · cases h

/-- What is written in the end for a use. -/
def finalWrite? (bases : Bases) (globals : Std.ExtTreeMap String Global compare) (m : Placed) (use : Address × Address) :
    Option Write :=
  match m.write? bases use with
  | some w => some w
  | none => (m.fixup? use).bind (Fixup.write? bases globals)

theorem fills_finalWrite? (built : Built bases ms l) {use : Address × Address} {w : Write}
    (h : finalWrite? bases l.globals m use = some w) : Fills bases ms m use w := by
  unfold finalWrite? at h
  split at h
  · rename_i written
    cases h
    exact fills_write? written
  · obtain ⟨f, kept, written⟩ := Option.bind_eq_some_iff.1 h
    exact fills_fixup? built kept written

/-- What is written in the end comes from the uses. -/
theorem mem_writes_iff (built : Built bases ms l) {w : Write} :
    w ∈ (placed ms).flatMap (Placed.writes bases) ++ l.fixups.toList.filterMap (Fixup.write? bases l.globals) ↔
      ∃ m ∈ placed ms, ∃ use ∈ m.object.uses.toList, finalWrite? bases l.globals m use = some w := by
  rw [built.fixups, List.mem_append, List.mem_flatMap, List.mem_filterMap]
  unfold finalWrite? Placed.writes Placed.fixups
  constructor
  · rintro (⟨m, loaded, mem⟩ | ⟨f, mem, written⟩)
    · obtain ⟨use, used, written⟩ := List.mem_filterMap.1 mem
      exact ⟨m, loaded, use, used, by rw [written]⟩
    · obtain ⟨m, loaded, mem⟩ := List.mem_flatMap.1 mem
      obtain ⟨use, used, kept⟩ := List.mem_filterMap.1 mem
      exact ⟨m, loaded, use, used, by rw [write?_of_fixup? kept, kept]; exact written⟩
  · rintro ⟨m, loaded, use, used, h⟩
    split at h
    · rename_i written
      cases h
      exact .inl ⟨m, loaded, List.mem_filterMap.2 ⟨use, used, written⟩⟩
    · obtain ⟨f, kept, written⟩ := Option.bind_eq_some_iff.1 h
      exact .inr ⟨f, List.mem_flatMap.2 ⟨m, loaded, List.mem_filterMap.2 ⟨use, used, kept⟩⟩, written⟩

/-! ### The result -/

/-- Where uses are contained in their modules, only one use of a module whose uses are apart is written to a place. -/
theorem Fills.unique (contained : ∀ m ∈ ms, m.object.Contained) (apart : m.object.Apart) {m' : Placed}
    (loaded : m ∈ placed ms) (loaded' : m' ∈ placed ms)
    {use use' : Address × Address} (used : use ∈ m.object.uses.toList) (used' : use' ∈ m'.object.uses.toList) {w w' : Write}
    (fills : Fills bases ms m use w) (fills' : Fills bases ms m' use' w') {s : Space} {i : Nat} (covers : w.Covers s i)
    (covers' : w'.Covers s i) : m = m' ∧ use = use' := by
  obtain ⟨site, value⟩ := use
  obtain ⟨site', value'⟩ := use'
  rw [Std.ExtTreeMap.mem_toList_iff_getElem?_eq_some] at used used'
  have length := fills.length_eq
  have length' := fills'.length_eq
  obtain ⟨rfl, lower, upper⟩ := covers
  obtain ⟨space, lower', upper'⟩ := covers'
  obtain ⟨located, offset, -⟩ := fills
  obtain ⟨located', offset', -⟩ := fills'
  rw [space] at located' offset'
  -- both places lie within their modules
  obtain ⟨t, place, inside⟩ := contained m.toNamedObject (mem_of_mem_placed loaded) used
  obtain ⟨t', place', inside'⟩ := contained m'.toNamedObject (mem_of_mem_placed loaded') used'
  cases located.symm.trans place
  cases located'.symm.trans place'
  unfold Placed.offset at offset offset'
  dsimp only at length length' offset offset' located located'
  have same : m = m' := eq_of_mem_place loaded loaded' (s := w.space) (i := i) ⟨by omega, by omega⟩ ⟨by omega, by omega⟩
  subst same
  have sites : site = site' := by
    by_contra different
    have apart := apart used used' different (located.trans located'.symm)
    omega
  subst sites
  rw [Option.some.inj (used.symm.trans used')]
  exact ⟨rfl, rfl⟩

/-- All that is written lies in the segments. -/
theorem Built.fits_writes (built : Built bases ms l)
    (fits : ∀ w ∈ l.fixups.toList.filterMap (Fixup.write? bases l.globals), w.Fits l.segments) :
    ∀ w ∈ (placed ms).flatMap (Placed.writes bases) ++ l.fixups.toList.filterMap (Fixup.write? bases l.globals),
      w.Fits (laidOut ms) := by
  rw [List.forall_mem_append]
  refine ⟨built.fits, fun w mem => (Write.fits_congr fun s => ?_).1 (fits w mem)⟩
  rw [built.segments, Write.size_foldl_apply]

/-- What is written for a use is there in the end. -/
theorem Built.getElem?_of_finalWrite? (built : Built bases ms l)
    (fits : ∀ w ∈ l.fixups.toList.filterMap (Fixup.write? bases l.globals), w.Fits l.segments)
    (contained : ∀ m ∈ ms, m.object.Contained) (apart : m.object.Apart) (loaded : m ∈ placed ms)
    {use : Address × Address} (used : use ∈ m.object.uses.toList) {w : Write}
    (found : finalWrite? bases l.globals m use = some w) {j : Nat} (bound : j < w.bytes.length) :
    (((l.fixups.toList.filterMap (Fixup.write? bases l.globals)).foldl Write.apply l.segments).get w.space).bytes[
      w.offset + j]? = w.bytes[j]? := by
  have fills := fills_finalWrite? built found
  have covers : w.Covers w.space (w.offset + j) := ⟨rfl, Nat.le_add_right .., Nat.add_lt_add_left bound _⟩
  rw [built.segments, ← List.foldl_append]
  refine Write.getElem?_foldl_apply_of_covers (built.fits_writes fits) (fun w' mem' covers' => ?_)
    ⟨w, (mem_writes_iff built).2 ⟨m, loaded, _, used, found⟩, covers⟩
  obtain ⟨m', loaded', use', used', found'⟩ := (mem_writes_iff built).1 mem'
  obtain ⟨rfl, rfl⟩ :=
    fills.unique contained apart loaded loaded' used used' (fills_finalWrite? built found') covers covers'
  rw [Option.some.inj (found'.symm.trans found), Nat.add_sub_cancel_left]

/-- What no use has its place at is kept. -/
theorem Built.getElem?_of_free (built : Built bases ms l) {s : Space} {i : Nat}
    (free : ∀ m ∈ placed ms, ∀ site value : Address, m.object.uses[site]? = some value → site.space? = some s →
      ¬ (m.offset s site ≤ i ∧ i < m.offset s site + value.footprint)) :
    (((l.fixups.toList.filterMap (Fixup.write? bases l.globals)).foldl Write.apply l.segments).get s).bytes[i]? =
      ((laidOut ms).get s).bytes[i]? := by
  rw [built.segments, ← List.foldl_append]
  refine Write.getElem?_foldl_apply_of_not_covers fun w mem covers => ?_
  obtain ⟨m, loaded, ⟨site, value⟩, used, found⟩ := (mem_writes_iff built).1 mem
  have fills := fills_finalWrite? built found
  obtain ⟨rfl, lower, upper⟩ := covers
  rw [fills.length_eq] at upper
  rw [fills.offset] at lower upper
  exact free m loaded site value (Std.ExtTreeMap.mem_toList_iff_getElem?_eq_some.1 used) fills.located ⟨lower, upper⟩

/-- The name of an external symbol has a value if nothing is left open. -/
theorem Built.defines (built : Built bases ms l)
    (complete : ∀ {name : String} {g : Global}, l.globals[name]? = some g → g.isWanted = false)
    {m : NamedObject} (loaded : m ∈ ms) {id : SymbolId} {s : Symbol} (found : m.object.symbols[id]? = some s)
    (external : s.address.isExternal = true) : Defines l.globals s.name := by
  have mem : s ∈ m.object.externals := List.mem_filter.2 ⟨(OrderedMap.mem_values _).2 ⟨id, found⟩, external⟩
  obtain ⟨g, known⟩ := Option.isSome_iff_exists.1 (built.known loaded mem)
  cases g with
  | wanted => cases complete known
  | defined value space module => exact ⟨value, space, module, known⟩

/-- In the end every use of a loaded module has its write. -/
theorem exists_finalWrite? (built : Built bases ms l) (sited : ∀ m ∈ ms, m.object.Sited)
    (complete : ∀ {name : String} {g : Global}, l.globals[name]? = some g → g.isWanted = false)
    (written : ∀ f ∈ l.fixups.toList, Defines l.globals f.name → (f.write? bases l.globals).isSome)
    (loaded : m ∈ placed ms) {use : Address × Address} (used : use ∈ m.object.uses.toList) :
    ∃ w, finalWrite? bases l.globals m use = some w := by
  unfold finalWrite?
  rcases built.uses m loaded use used with now | later
  · obtain ⟨w, found⟩ := Option.isSome_iff_exists.1 now
    exact ⟨w, by rw [found]⟩
  · obtain ⟨f, kept⟩ := Option.isSome_iff_exists.1 later
    obtain ⟨id, -, origin, named, -⟩ := of_fixup? kept
    have mem : f ∈ l.fixups.toList := by
      rw [built.fixups]
      exact List.mem_flatMap.2 ⟨m, loaded, List.mem_filterMap.2 ⟨use, used, kept⟩⟩
    obtain ⟨s, found, external⟩ := (sited m.toNamedObject (mem_of_mem_placed loaded)).externals
      (Std.ExtTreeMap.mem_toList_iff_getElem?_eq_some.1 used) origin
    have name : s.name = f.name := by
      rw [Object.symbolName?, found] at named
      exact Option.some.inj named
    have defined := built.defines complete (mem_of_mem_placed loaded) found external
    obtain ⟨w, shown⟩ := Option.isSome_iff_exists.1 (written f mem (name ▸ defined))
    exact ⟨w, by rw [write?_of_fixup? kept, kept]; exact shown⟩

/-- The segments of a link without errors are those of its modules, with the final value of every use in its place. -/
theorem Built.relocated (built : Built bases ms l) (sited : ∀ m ∈ ms, m.object.Sited)
    (complete : ∀ {name : String} {g : Global}, l.globals[name]? = some g → g.isWanted = false)
    (written : ∀ f ∈ l.fixups.toList, Defines l.globals f.name → (f.write? bases l.globals).isSome)
    (fits : ∀ w ∈ l.fixups.toList.filterMap (Fixup.write? bases l.globals), w.Fits l.segments) :
    Relocated bases ms ((l.fixups.toList.filterMap (Fixup.write? bases l.globals)).foldl Write.apply l.segments) := by
  refine ⟨fun s => ?_, FinalValue.unique built.nodup, ?_, built.getElem?_of_free⟩
  · rw [built.segments, ← List.foldl_append, Write.size_foldl_apply]
  · intro m loaded site value used
    have mem := Std.ExtTreeMap.mem_toList_iff_getElem?_eq_some.2 used
    obtain ⟨w, found⟩ := exists_finalWrite? built sited complete written loaded mem
    have fills := fills_finalWrite? built found
    obtain ⟨v, value, shows⟩ := fills.shows
    refine ⟨w.space, v, w.bytes, fills.located, value, fills.offset ▸ shows, fun j bound => ?_⟩
    rw [← fills.offset]
    exact built.getElem?_of_finalWrite? fits (fun m mem => (sited m mem).inside)
      (sited m.toNamedObject (mem_of_mem_placed loaded)).apart loaded mem found bound

end

/-- A link that succeeds gives the modules in the order they were loaded, first those that were given, then those
that were pulled from libraries. If their uses are sited, the segments are theirs one after another, with the final
value in the place of each use and all other bytes kept. -/
theorem link_relocates {bases : Bases} {inputs : List Input} {out : LinkOutput}
    (linked : (load bases inputs).link = .ok out) :
    ∃ pulls, PullsAll (load bases inputs) pulls (load bases inputs).pullAll
      ∧ out.modules.toList = (inputs.filterMap Input.module? ++ pulls.map Pull.named).map (·.name)
      ∧ ((∀ m ∈ inputs.filterMap Input.module? ++ pulls.map Pull.named, m.object.Sited) →
          Relocated bases (inputs.filterMap Input.module? ++ pulls.map Pull.named) out.segments) := by
  obtain ⟨finished, segments, modules⟩ := of_link linked
  obtain ⟨clean, complete, written, fits, result⟩ := of_finish finished
  obtain ⟨pulls, all⟩ := (load bases inputs).rounds_pullAll.exists_pulls
  have built := (Built.start bases).add ((adds_foldl_add _ inputs).append all.adds) clean
  rw [List.nil_append] at built
  refine ⟨pulls, all, ?_, fun sited => ?_⟩
  · rw [modules, result]
    exact built.modules
  have same : (load bases inputs).pullAll.bases = bases := built.sameBases
  rw [same] at written fits result
  rw [segments, result]
  exact built.relocated sited complete written fits

/-- `jsr out` and a branch back to the start. -/
def caller : Object :=
  ({ segments := ⟨⟨#[0x20, 0x00, 0x00, 0xd0, 0x00]⟩, .empty, .empty⟩ } : Object)
    |>.addSymbol { id := 1, name := "out", address := .external 1 }
    |>.addUse (.inSpace .code 1) (.external 1)
    |>.addUse (.inSpace .code 4) { Address.inSpace .code 0 with relative := true }

/-- `out: rts`, and the high byte of its address as data. -/
def callee : Object :=
  ({ segments := ⟨⟨#[0x60]⟩, ⟨#[0x00]⟩, .empty⟩ } : Object)
    |>.addSymbol { id := 1, name := "out", address := .inSpace .code 0, isPublic := true }
    |>.addUse (.inSpace .data 0) { Address.inSpace .code 0 with part := .high }

def calleeLibrary : Library :=
  { objects := #[callee], index := (∅ : Std.ExtTreeMap String UInt16 compare).insert "out" 0 }

/-- The callee is pulled from a library. Its public name, its own use and the two uses of the caller are all
relocated. -/
theorem link_relocates_call :
    let bases : Bases := ⟨0x1000, 0x2000, 0⟩
    let inputs : List Input := [.library "lib" calleeLibrary, .object "main" caller]
    ∃ out pulls, (load bases inputs).link = .ok out ∧ PullsAll (load bases inputs) pulls (load bases inputs).pullAll
      ∧ out.modules = #["main", "lib[0]"] ∧ out.segments.code = ⟨#[0x20, 0x05, 0x10, 0xd0, 0xfb, 0x60]⟩
      ∧ out.segments.data = ⟨#[0x10]⟩
      ∧ Relocated bases (⟨"main", caller⟩ :: pulls.map Pull.named) out.segments := by
  intro bases inputs
  have succeeds : ((load bases inputs).link.toOption.any fun out => out.modules == #["main", "lib[0]"]
      && out.segments.code == ⟨#[0x20, 0x05, 0x10, 0xd0, 0xfb, 0x60]⟩ && out.segments.data == ⟨#[0x10]⟩) = true := by
    decide +kernel
  cases linked : (load bases inputs).link with
  | error => rw [linked] at succeeds; cases succeeds
  | ok out =>
    rw [linked] at succeeds
    simp only [Except.toOption, Option.any_some, Bool.and_eq_true, beq_iff_eq] at succeeds
    obtain ⟨pulls, all, -, relocated⟩ := link_relocates linked
    refine ⟨out, pulls, rfl, all, succeeds.1.1, succeeds.1.2, succeeds.2, relocated ?_⟩
    intro m mem
    rcases List.mem_cons.1 mem with rfl | mem
    · exact (by decide +kernel : caller.Sited)
    · obtain ⟨p, pulled, rfl⟩ := List.mem_map.1 mem
      obtain ⟨s, onShelf, found⟩ := all.mem_objects p pulled
      rw [load, shelves_foldl_add] at onShelf
      obtain rfl := List.mem_singleton.1 onShelf
      have object : p.object = callee := Array.mem_singleton.1 found
      show p.object.Sited
      rw [object]
      decide +kernel

end Linker

end Asm65
