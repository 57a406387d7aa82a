import Asm65.Object.Codec
import Asm65.Proofs.LinkedImage

/-!
# Whose bytes a link changes

A use that is written when its module is loaded lies in the module's own segment, or the link fails. An external use
is written when all modules are loaded, and nothing keeps it from going on into the modules behind its own. This is
the only way in which a module changes bytes of another.
-/

namespace Asm65
set_option autoImplicit false

/-- A use ends behind the segment of its site. -/
def Object.Overruns (o : Object) (site value : Address) : Prop :=
  ∃ s, site.space? = some s ∧ (o.segment s).size < site.value.toNat + value.footprint

/-- Byte `i` of linked segment `s` is in the place of a use. -/
def Placed.Touches (m : Placed) (site value : Address) (s : Space) (i : Nat) : Prop :=
  site.space? = some s ∧ m.offset s site ≤ i ∧ i < m.offset s site + value.footprint

namespace Linker

variable {bases : Bases} {ms : List NamedObject} {m : Placed} {l : Linker}

/-- The bytes of a module are found where it is placed. -/
theorem getElem?_laidOut (loaded : m ∈ placed ms) {s : Space} {i : Nat} (bound : i < (m.object.segment s).size) :
    ((laidOut ms).get s).bytes[m.offsets.get s + i]? = (m.object.segment s).bytes[i]? := by
  induction ms using List.reverseRecOn with
  | nil => cases loaded
  | append_singleton ms last ih =>
    rw [laidOut_append, PerSpace.get_zipWith, Segment.append]
    rw [placed_append, List.mem_append, List.mem_singleton] at loaded
    rcases loaded with before | rfl
    · have room := end_le_of_mem_placed before s
      rw [Array.getElem?_append_left (Nat.lt_of_lt_of_le (Nat.add_lt_add_left bound _) room)]
      exact ih before
    · rw [PerSpace.get_map, Segment.size, Array.getElem?_append_right (Nat.le_add_right ..), Nat.add_sub_cancel_left]
      rfl

/-- What is not external is written at once, in the module's own part. -/
theorem Built.not_overruns (built : Built bases ms l) (loaded : m ∈ placed ms) {site value : Address}
    (used : m.object.uses[site]? = some value) (known : value.isExternal = false) :
    ¬ m.object.Overruns site value := by
  rintro ⟨s, located, beyond⟩
  have mem := Std.ExtTreeMap.mem_toList_iff_getElem?_eq_some.2 used
  rcases built.uses m loaded _ mem with now | later
  · obtain ⟨w, written⟩ := Option.isSome_iff_exists.1 now
    have fills : Fills bases ms m (site, value) w := fills_write? written
    have inside := built.inside m loaded w (List.mem_filterMap.2 ⟨_, mem, written⟩)
    cases located.symm.trans fills.located
    rw [fills.length_eq, fills.offset, Placed.offset] at inside
    dsimp only at inside
    omega
  · obtain ⟨f, kept⟩ := Option.isSome_iff_exists.1 later
    obtain ⟨id, -, origin, -⟩ := of_fixup? kept
    rw [Address.isExternal, origin] at known
    cases known

/-- What is written over a byte of a module comes from the module itself, or from an external use that leaves its
own. -/
theorem Built.of_covers (built : Built bases ms l) (loaded : m ∈ placed ms) {s : Space} {i : Nat}
    (bound : i < (m.object.segment s).size) {w : Write}
    (mem : w ∈ (placed ms).flatMap (Placed.writes bases) ++ l.fixups.toList.filterMap (Fixup.write? bases l.globals))
    (covers : w.Covers s (m.offsets.get s + i)) :
    ∃ d ∈ placed ms, ∃ site value, d.object.uses[site]? = some value ∧ d.Touches site value s (m.offsets.get s + i)
      ∧ (d = m ∨ value.isExternal = true ∧ d.object.Overruns site value) := by
  obtain ⟨d, loaded', ⟨site, value⟩, used, found⟩ := (mem_writes_iff built).1 mem
  rw [Std.ExtTreeMap.mem_toList_iff_getElem?_eq_some] at used
  have fills := fills_finalWrite? built found
  obtain ⟨rfl, lower, upper⟩ := covers
  rw [fills.length_eq] at upper
  rw [fills.offset] at lower upper
  have located := fills.located
  refine ⟨d, loaded', site, value, used, ⟨located, lower, upper⟩, ?_⟩
  by_cases beyond : d.object.Overruns site value
  · cases known : value.isExternal with
    | true => exact .inr ⟨rfl, beyond⟩
    | false => exact (built.not_overruns loaded' used known beyond).elim
  · -- a use within its module touches no byte of another
    have within : site.value.toNat + value.footprint ≤ (d.object.segment w.space).size :=
      Nat.not_lt.1 fun less => beyond ⟨w.space, located, less⟩
    unfold Placed.offset at lower upper
    dsimp only at lower upper
    exact .inl (eq_of_mem_place loaded' loaded (s := w.space) (i := m.offsets.get w.space + i) ⟨by omega, by omega⟩
      ⟨by omega, by omega⟩)

/-- Which bytes of the linked segments are those of modules `ms`. -/
structure Isolated (ms : List NamedObject) (segments : PerSpace Segment) : Prop where
  /-- No use but an external one leaves its module. -/
  inside {m : Placed} (loaded : m ∈ placed ms) {site value : Address} (used : m.object.uses[site]? = some value)
    (known : value.isExternal = false) : ¬ m.object.Overruns site value
  /-- A byte that no use of its own module is written to is kept, unless an external use of another module leaves
  that module and is written to it. -/
  kept {m : Placed} (loaded : m ∈ placed ms) {s : Space} {i : Nat} (bound : i < (m.object.segment s).size)
    (own : ∀ site value : Address, m.object.uses[site]? = some value → ¬ m.Touches site value s (m.offsets.get s + i))
    (foreign : ∀ d ∈ placed ms, ∀ site value : Address, d.object.uses[site]? = some value → value.isExternal = true →
      d.object.Overruns site value → ¬ d.Touches site value s (m.offsets.get s + i)) :
    (segments.get s).bytes[m.offsets.get s + i]? = (m.object.segment s).bytes[i]?

/-- In a link that succeeds, only external uses can leave their modules, and where none does, every module changes
its own bytes only. -/
theorem link_isolates {inputs : List Input} {out : LinkOutput} (linked : (load bases inputs).link = .ok out) :
    ∃ pulls, PullsAll (load bases inputs) pulls (load bases inputs).pullAll
      ∧ Isolated (inputs.filterMap Input.module? ++ pulls.map Pull.named) out.segments := by
  obtain ⟨finished, segments, -⟩ := of_link linked
  obtain ⟨clean, -, -, -, result⟩ := of_finish finished
  obtain ⟨pulls, all⟩ := (load bases inputs).rounds_pullAll.exists_pulls
  have built := (Built.start bases).add ((adds_foldl_add _ inputs).append all.adds) clean
  rw [List.nil_append] at built
  refine ⟨pulls, all, built.not_overruns, fun {m} loaded {s i} bound own foreign => ?_⟩
  rw [segments, result]
  have same : (load bases inputs).pullAll.bases = bases := built.sameBases
  dsimp only
  rw [same, built.segments, ← List.foldl_append, ← getElem?_laidOut loaded bound]
  refine Write.getElem?_foldl_apply_of_not_covers fun w mem covers => ?_
  obtain ⟨d, loaded', site, value, used, touches, rfl | ⟨external, beyond⟩⟩ := built.of_covers loaded bound mem covers
  · exact own site value used touches
  · exact foreign d loaded' site value used external beyond touches

/-- One byte of code, and an external use behind its end. -/
def intruder : Object :=
  ({ segments := ⟨⟨#[0x60]⟩, .empty, .empty⟩ } : Object)
    |>.addSymbol { id := 1, name := "X", address := .external 1 }
    |>.addUse (.inSpace .code 2) (.external 1)

/-- Four bytes of code without uses, and the constant that the other module asks for. -/
def bystander : Object :=
  ({ segments := ⟨⟨#[0xea, 0xea, 0xea, 0xea]⟩, .empty, .empty⟩ } : Object)
    |>.addSymbol { id := 1, name := "X", address := .constant 0x1207, isPublic := true }

/-- The last byte of the second module is kept: no use of its own touches it, and the one that leaves the first module
ends before it. -/
theorem link_isolates_last_byte :
    ∃ out, (load ⟨0x1000, 0x2000, 0⟩ [.object "a" intruder, .object "b" bystander]).link = .ok out
      ∧ intruder.Overruns (.inSpace .code 2) (.external 1) ∧ (out.segments.get .code).bytes[1 + 3]? = some 0xea := by
  have succeeds : (load ⟨0x1000, 0x2000, 0⟩ [.object "a" intruder, .object "b" bystander]).link.isOk = true := by
    decide +kernel
  cases linked : (load ⟨0x1000, 0x2000, 0⟩ [.object "a" intruder, .object "b" bystander]).link with
  | error => rw [linked] at succeeds; cases succeeds
  | ok out =>
    refine ⟨out, rfl, ⟨.code, rfl, by decide⟩, ?_⟩
    obtain ⟨pulls, all, isolated⟩ := link_isolates linked
    have none : pulls = [] := by
      refine List.eq_nil_iff_forall_not_mem.2 fun p pulled => ?_
      obtain ⟨s, onShelf, -⟩ := all.mem_objects p pulled
      rw [load, shelves_foldl_add] at onShelf
      cases onShelf
    have only : ∀ use ∈ intruder.uses.toList, use = (.inSpace .code 2, .external 1) := by decide +kernel
    subst none
    refine isolated.kept (m := ⟨⟨"b", bystander⟩, _⟩) (s := .code) (i := 3) (.tail _ (.head _)) (by decide) ?_ ?_
    · intro site value used
      cases Std.ExtTreeMap.getElem?_empty.symm.trans used
    · rintro d (_ | ⟨_, _ | ⟨_, ⟨⟩⟩⟩) site value used - - ⟨-, -, upper⟩
      · cases only _ (Std.ExtTreeMap.mem_toList_iff_getElem?_eq_some.2 used)
        exact absurd upper (by decide)
      · cases Std.ExtTreeMap.getElem?_empty.symm.trans used

/-- The external use of the first module is written over the code of the second, which has no uses. Both modules can
be read from object files. -/
theorem link_overwrites_bystander :
    ((load ⟨0x1000, 0x2000, 0⟩ [.object "a" intruder, .object "b" bystander]).link.toOption.map
        fun out => (out.segments.get .code).bytes) = some #[0x60, 0xea, 0x07, 0x12, 0xea]
      ∧ (bystander.segment .code).bytes = #[0xea, 0xea, 0xea, 0xea] ∧ bystander.uses = ∅
      ∧ (Object.ofBytes [0x01, 0x00, 0x01, 0x00, 0x60, 0x00, 0x00, 0x00, 0x00, 0x01, 0x00, 0x01, 0x00, 0x01, 0x00, 0x58,
          0x04, 0x00, 0x00, 0x01, 0x00, 0x00, 0x01, 0x00, 0x01, 0x02, 0x00, 0x00, 0x04, 0x00, 0x00, 0x01, 0x00,
          0x00]).toOption = some intruder
      ∧ (Object.ofBytes [0x01, 0x00, 0x04, 0x00, 0xea, 0xea, 0xea, 0xea, 0x00, 0x00, 0x00, 0x00, 0x01, 0x00, 0x01, 0x00,
          0x01, 0x00, 0x58, 0x00, 0x07, 0x12, 0x00, 0x00]).toOption = some bystander := by
  decide +kernel

end Linker

end Asm65
