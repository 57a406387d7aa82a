import Asm65.Segment

/-!
# Bytes that are overwritten

A linked segment is the bytes of its modules with some of them overwritten. Here is what overwriting does to each
byte: it holds what is written over it if all that is written there is the same, and it is kept if nothing is.
-/

namespace Asm65
set_option autoImplicit false

namespace PerSpace

theorem zipWith_modify {α β γ : Type} {f : α → β → γ} {g : α → α} {h : γ → γ} {p : PerSpace α} {q : PerSpace β}
    {s : Space} (here : f (g (p.get s)) (q.get s) = h (f (p.get s) (q.get s))) :
    (p.modify s g).zipWith f q = (p.zipWith f q).modify s h := by
  cases s <;> simp only [modify, zipWith, mk.injEq, and_true, true_and] <;> exact here

end PerSpace

namespace Segment

/-- Overwriting changes the bytes in its range that exist, and makes none. -/
theorem getElem?_overwrite (s : Segment) (offset : Nat) (bs : List UInt8) (i : Nat) :
    (s.overwrite offset bs).bytes[i]? =
      if offset ≤ i ∧ i < offset + bs.length ∧ i < s.size then bs[i - offset]? else s.bytes[i]? := by
  induction bs generalizing s offset with
  | nil => rw [overwrite, List.length_nil, if_neg (by omega)]
  | cons b rest ih =>
    rw [overwrite, ih, List.length_cons]
    have same : size ⟨s.bytes.setIfInBounds offset b⟩ = s.size := Array.size_setIfInBounds
    rw [same, Array.getElem?_setIfInBounds]
    by_cases here : offset = i
    · subst here
      rw [if_neg (by omega), if_pos rfl, Nat.sub_self, List.getElem?_cons_zero]
      by_cases bound : offset < s.bytes.size
      · rw [if_pos bound, if_pos ⟨Nat.le_refl _, by omega, bound⟩]
      · rw [if_neg bound, if_neg fun h => bound h.2.2, Array.getElem?_eq_none (Nat.le_of_not_lt bound)]
    · rw [if_neg here]
      by_cases inside : offset + 1 ≤ i ∧ i < offset + 1 + rest.length ∧ i < s.size
      · rw [if_pos inside, if_pos (by omega), show i - offset = i - (offset + 1) + 1 by omega, List.getElem?_cons_succ]
      · rw [if_neg inside, if_neg (by omega)]

/-- What is appended later is out of reach of what was overwritten within the bounds. -/
theorem append_overwrite (s : Segment) {offset : Nat} {bs : List UInt8} (fits : offset + bs.length ≤ s.size)
    (more : Array UInt8) : (s.overwrite offset bs).append more = (s.append more).overwrite offset bs := by
  have bytes : ((s.overwrite offset bs).append more).bytes = ((s.append more).overwrite offset bs).bytes := by
    refine Array.ext_getElem? fun i => ?_
    have size : (s.overwrite offset bs).bytes.size = s.size := s.size_overwrite offset bs
    rw [getElem?_overwrite, bytes_append, bytes_append, Array.getElem?_append, Array.getElem?_append, size,
      getElem?_overwrite, size_append]
    by_cases before : i < s.size
    · rw [if_pos before, if_pos (show i < s.bytes.size from before)]
      by_cases inside : offset ≤ i ∧ i < offset + bs.length
      · rw [if_pos ⟨inside.1, inside.2, before⟩, if_pos ⟨inside.1, inside.2, by omega⟩]
      · rw [if_neg fun h => inside ⟨h.1, h.2.1⟩, if_neg fun h => inside ⟨h.1, h.2.1⟩]
    · rw [if_neg before, if_neg (show ¬ i < s.bytes.size from before), if_neg (by omega)]
      rfl
  cases h : (s.overwrite offset bs).append more
  cases h' : (s.append more).overwrite offset bs
  rw [h, h'] at bytes
  exact congrArg Segment.mk bytes

end Segment

/-- Bytes to be written at a place of a space. -/
structure Write where
  space : Space
  offset : Nat
  bytes : List UInt8

namespace Write

def apply (segments : PerSpace Segment) (w : Write) : PerSpace Segment :=
  segments.modify w.space (·.overwrite w.offset w.bytes)

/-- All bytes go to places that exist. -/
def Fits (w : Write) (segments : PerSpace Segment) : Prop :=
  w.offset + w.bytes.length ≤ (segments.get w.space).size

/-- A byte goes to place `i` of the space. -/
def Covers (w : Write) (space : Space) (i : Nat) : Prop :=
  w.space = space ∧ w.offset ≤ i ∧ i < w.offset + w.bytes.length

variable {segments : PerSpace Segment} {w : Write} {ws : List Write} {space : Space} {i : Nat}

theorem size_apply (segments : PerSpace Segment) (w : Write) (space : Space) :
    ((apply segments w).get space).size = (segments.get space).size := by
  unfold apply
  by_cases same : w.space = space
  · subst same
    rw [PerSpace.get_modify_self, Segment.size_overwrite]
  · rw [PerSpace.get_modify_of_ne _ _ same]

theorem size_foldl_apply (segments : PerSpace Segment) (ws : List Write) (space : Space) :
    ((ws.foldl apply segments).get space).size = (segments.get space).size := by
  induction ws generalizing segments with
  | nil => rfl
  | cons w rest ih => rw [List.foldl_cons, ih, size_apply]

theorem fits_congr {segments' : PerSpace Segment} (h : ∀ space, (segments.get space).size = (segments'.get space).size) :
    w.Fits segments ↔ w.Fits segments' := by
  unfold Fits
  rw [h]

theorem getElem?_apply_of_covers (fits : w.Fits segments) (covers : w.Covers space i) :
    ((apply segments w).get space).bytes[i]? = w.bytes[i - w.offset]? := by
  obtain ⟨rfl, lower, upper⟩ := covers
  unfold apply
  rw [PerSpace.get_modify_self, Segment.getElem?_overwrite, if_pos ⟨lower, upper, Nat.lt_of_lt_of_le upper fits⟩]

theorem getElem?_apply_of_not_covers (free : ¬ w.Covers space i) :
    ((apply segments w).get space).bytes[i]? = (segments.get space).bytes[i]? := by
  unfold apply
  by_cases same : w.space = space
  · subst same
    rw [PerSpace.get_modify_self, Segment.getElem?_overwrite, if_neg fun h => free ⟨rfl, h.1, h.2.1⟩]
  · rw [PerSpace.get_modify_of_ne _ _ same]

/-- A place that nothing is written to keeps its byte. -/
theorem getElem?_foldl_apply_of_not_covers (free : ∀ w ∈ ws, ¬ w.Covers space i) :
    ((ws.foldl apply segments).get space).bytes[i]? = (segments.get space).bytes[i]? := by
  induction ws generalizing segments with
  | nil => rfl
  | cons w rest ih =>
    rw [List.forall_mem_cons] at free
    rw [List.foldl_cons, ih free.2, getElem?_apply_of_not_covers free.1]

/-- A place that the same byte is always written to holds this byte. -/
theorem getElem?_foldl_apply_of_covers {b : Option UInt8} (fits : ∀ w ∈ ws, w.Fits segments)
    (agree : ∀ w ∈ ws, w.Covers space i → w.bytes[i - w.offset]? = b) (covered : ∃ w ∈ ws, w.Covers space i) :
    ((ws.foldl apply segments).get space).bytes[i]? = b := by
  induction ws generalizing segments with
  | nil =>
    obtain ⟨_, none, -⟩ := covered
    cases none
  | cons w rest ih =>
    rw [List.forall_mem_cons] at fits agree
    have later : ∀ w' ∈ rest, w'.Fits (apply segments w) :=
      fun w' mem => (fits_congr (size_apply segments w)).2 (fits.2 w' mem)
    rw [List.foldl_cons]
    by_cases again : ∃ w' ∈ rest, w'.Covers space i
    · exact ih later agree.2 again
    · obtain ⟨w', mem, covers⟩ := covered
      rcases List.mem_cons.1 mem with rfl | mem
      · rw [getElem?_foldl_apply_of_not_covers fun w' mem covers => again ⟨w', mem, covers⟩,
          getElem?_apply_of_covers fits.1 covers, agree.1 covers]
      · exact (again ⟨w', mem, covers⟩).elim

/-- Segments that grow after writing are segments that are written to when they have grown. -/
theorem zipWith_append_foldl_apply (fits : ∀ w ∈ ws, w.Fits segments) (more : PerSpace Segment) :
    (ws.foldl apply segments).zipWith (fun s t => s.append t.bytes) more =
      ws.foldl apply (segments.zipWith (fun s t => s.append t.bytes) more) := by
  induction ws generalizing segments with
  | nil => rfl
  | cons w rest ih =>
    rw [List.forall_mem_cons] at fits
    have later : ∀ w' ∈ rest, w'.Fits (apply segments w) :=
      fun w' mem => (fits_congr (size_apply segments w)).2 (fits.2 w' mem)
    rw [List.foldl_cons, List.foldl_cons, ih later]
    congr 1
    exact PerSpace.zipWith_modify (Segment.append_overwrite _ fits.1 _)

end Write

end Asm65
