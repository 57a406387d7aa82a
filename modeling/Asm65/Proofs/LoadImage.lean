import Asm65.Proofs.LinkSuccess

/-!
# The memory that a link fills

A link without errors puts the segments that are not empty at addresses of their own, all of them in the memory and
the zero page segment in the zero page. The load image covers code and data from the least address to the greatest:
each address holds its byte of code or of data, and the addresses between the two hold zero (`link_image`).
-/

namespace Asm65
set_option autoImplicit false

namespace Linker

variable {l : Linker}

/-! ### The layout -/

theorem of_check_eq {c : Prop} [Decidable c] {cause : Cause} (clean : l.diagnostics.isEmpty = true)
    (h : (if c then l.record cause else l) = l) : ¬ c := by
  intro wrong
  rw [if_pos wrong] at h
  rw [← h] at clean
  exact record_ne_clean clean

/-- The address behind the segment of a space. -/
def stop (bases : Bases) (segments : PerSpace Segment) (s : Space) : Nat :=
  (bases.get s).toNat + (segments.get s).size

/-- Segments have addresses of their own. -/
structure LaidApart (bases : Bases) (segments : PerSpace Segment) : Prop where
  zeroPage : stop bases segments .zeroPage ≤ 0x100
  inMemory {s : Space} (some : (segments.get s).size ≠ 0) : stop bases segments s ≤ 0x10000
  apart {s t : Space} (other : s ≠ t) (hs : (segments.get s).size ≠ 0) (ht : (segments.get t).size ≠ 0) :
    stop bases segments s ≤ (bases.get t).toNat ∨ stop bases segments t ≤ (bases.get s).toNat

theorem range?_eq_some {s : Space} (some : (l.segments.get s).size ≠ 0) :
    l.range? s = .some (s, (l.bases.get s).toNat, stop l.bases l.segments s) :=
  if_neg some

/-- Of two ranges without a common address one comes behind the other. -/
theorem apart_of_overlaps {ranges : List (Space × Nat × Nat)} (none : overlaps ranges = [])
    {a b : Space × Nat × Nat} (ha : a ∈ ranges) (hb : b ∈ ranges) (other : a.1 ≠ b.1) :
    a.2.2 ≤ b.2.1 ∨ b.2.2 ≤ a.2.1 := by
  induction ranges with
  | nil => cases ha
  | cons c rest ih =>
    obtain ⟨first, others⟩ := List.append_eq_nil_iff.1 none
    have free {d : Space × Nat × Nat} (mem : d ∈ rest) : c.2.2 ≤ d.2.1 ∨ d.2.2 ≤ c.2.1 := by
      have free := List.filter_eq_nil_iff.1 (List.map_eq_nil_iff.1 first) d mem
      simp only [Bool.and_eq_true, decide_eq_true_eq, not_and_or, Nat.not_lt] at free
      exact free.symm
    obtain rfl | inRest := List.mem_cons.1 ha
    · obtain rfl | later := List.mem_cons.1 hb
      · exact (other rfl).elim
      · exact free later
    · obtain rfl | later := List.mem_cons.1 hb
      · exact (free inRest).symm
      · exact ih others inRest later

/-- Without a complaint about the layout, segments share no address. -/
theorem laidApart_of_checkLayout (clean : l.checkLayout.diagnostics.isEmpty = true) : LaidApart l.bases l.segments := by
  have before : l.diagnostics.isEmpty = true := by
    rw [of_checkLayout clean] at clean
    exact clean
  unfold checkLayout at clean
  dsimp only at clean
  obtain ⟨overlapping, pairs⟩ := foldl_eq_of_clean (fun l e h => record_ne_clean h) clean
  rw [overlapping] at clean
  obtain ⟨long, each⟩ := foldl_eq_of_clean (fun l e h => of_check h) clean
  rw [long] at clean pairs
  have first := of_check clean
  rw [first] at each pairs
  have free : overlaps (Space.all.filterMap l.range?) = [] := by
    refine List.eq_nil_iff_forall_not_mem.2 fun pair mem => ?_
    have same : l.record _ = l := pairs pair mem
    rw [← same] at before
    exact record_ne_clean before
  have ranged {s : Space} (some : (l.segments.get s).size ≠ 0) :
      (s, (l.bases.get s).toNat, stop l.bases l.segments s) ∈ Space.all.filterMap l.range? :=
    List.mem_filterMap.2 ⟨s, s.mem_all, range?_eq_some some⟩
  refine ⟨Nat.not_lt.1 (of_check_eq before first), fun some => ?_, fun other hs ht => ?_⟩
  · exact Nat.not_lt.1 (of_check_eq before (each _ (ranged some)))
  · exact apart_of_overlaps free (ranged hs) (ranged ht) other

end Linker

namespace LinkOutput

variable {o : LinkOutput} {image bytes : Array UInt8} {spans : List (Nat × Array UInt8)} {offset start i : Nat}

/-! ### Copying -/

theorem size_blit (fits : offset + bytes.size ≤ image.size) : (blit image offset bytes).size = image.size := by
  simp only [blit, Array.size_append, Array.size_extract]
  omega

/-- Bytes written into an image are there, and all others stay. -/
theorem getElem?_blit (fits : offset + bytes.size ≤ image.size) :
    (blit image offset bytes)[i]? =
      if offset ≤ i ∧ i < offset + bytes.size then bytes[i - offset]? else image[i]? := by
  have before : (image.extract 0 offset).size = offset := by
    rw [Array.size_extract]
    omega
  rw [blit, Array.getElem?_append, Array.getElem?_append, Array.size_append, before]
  by_cases first : i < offset
  · rw [if_pos (by omega), if_pos first, if_neg (by omega), Array.getElem?_extract, if_pos (by omega), Nat.zero_add]
  · rw [if_neg first]
    by_cases inside : i < offset + bytes.size
    · rw [if_pos inside, if_pos ⟨by omega, inside⟩]
    · rw [if_neg inside, if_neg (by omega), Array.getElem?_extract]
      by_cases last : i < image.size
      · rw [if_pos (by omega)]
        congr 1
        omega
      · rw [if_neg (by omega), Array.getElem?_eq_none (by omega)]

/-- The address is one of the span. -/
def Spans (x : Nat × Array UInt8) (a : Nat) : Prop := x.1 ≤ a ∧ a < x.1 + x.2.size

/-- Spans copied to their places in an image that starts at `start`. -/
def copied (start : Nat) (image : Array UInt8) (spans : List (Nat × Array UInt8)) : Array UInt8 :=
  spans.foldl (fun image x => blit image (x.1 - start) x.2) image

/-- The span lies in an image of this size. -/
def Within (start size : Nat) (x : Nat × Array UInt8) : Prop := start ≤ x.1 ∧ x.1 + x.2.size ≤ start + size

theorem size_copied (within : ∀ x ∈ spans, Within start image.size x) : (copied start image spans).size = image.size := by
  induction spans generalizing image with
  | nil => rfl
  | cons x rest ih =>
    obtain ⟨⟨lower, upper⟩, others⟩ := List.forall_mem_cons.1 within
    have same : (blit image (x.1 - start) x.2).size = image.size := size_blit (by omega)
    rw [← same] at others ⊢
    exact ih others

/-- An address of no span keeps its byte. -/
theorem getElem?_copied_of_not_spans (within : ∀ x ∈ spans, Within start image.size x)
    (free : ∀ x ∈ spans, ¬ Spans x (start + i)) : (copied start image spans)[i]? = image[i]? := by
  induction spans generalizing image with
  | nil => rfl
  | cons x rest ih =>
    obtain ⟨⟨lower, upper⟩, others⟩ := List.forall_mem_cons.1 within
    obtain ⟨first, free⟩ := List.forall_mem_cons.1 free
    have fits : x.1 - start + x.2.size ≤ image.size := by omega
    rw [← size_blit fits] at others
    have kept : (blit image (x.1 - start) x.2)[i]? = image[i]? := by
      rw [getElem?_blit fits, if_neg fun h => first ⟨by omega, by omega⟩]
    exact (ih others free).trans kept

/-- An address of one span only has its byte. -/
theorem getElem?_copied_of_spans (within : ∀ x ∈ spans, Within start image.size x)
    (apart : spans.Pairwise fun x y => ∀ a, Spans x a → ¬ Spans y a) {x : Nat × Array UInt8} (mem : x ∈ spans)
    (here : Spans x (start + i)) : (copied start image spans)[i]? = x.2[start + i - x.1]? := by
  induction spans generalizing image with
  | nil => cases mem
  | cons y rest ih =>
    obtain ⟨⟨lower, upper⟩, others⟩ := List.forall_mem_cons.1 within
    obtain ⟨first, apart⟩ := List.pairwise_cons.1 apart
    have fits : y.1 - start + y.2.size ≤ image.size := by omega
    rw [← size_blit fits] at others
    obtain rfl | mem := List.mem_cons.1 mem
    · have later := getElem?_copied_of_not_spans others fun z mem => first z mem (start + i) here
      refine later.trans ?_
      obtain ⟨low, high⟩ := here
      rw [getElem?_blit fits, if_pos ⟨by omega, by omega⟩]
      congr 1
      omega
    · exact ih others apart mem

/-! ### Bounds -/

/-- The least or the greatest of some numbers, found by going through them. -/
theorem foldl_bound {op : Nat → Nat → Nat} {r : Nat → Nat → Prop} (refl : ∀ a, r a a)
    (trans : ∀ {a b c}, r a b → r b c → r a c)
    (picks : ∀ a b, (op a b = a ∨ op a b = b) ∧ r (op a b) a ∧ r (op a b) b) {α : Type} (f : α → Nat) (l : List α)
    (n : Nat) :
    (l.foldl (fun n x => op n (f x)) n = n ∨ ∃ x ∈ l, l.foldl (fun n x => op n (f x)) n = f x)
      ∧ r (l.foldl (fun n x => op n (f x)) n) n ∧ ∀ x ∈ l, r (l.foldl (fun n x => op n (f x)) n) (f x) := by
  induction l generalizing n with
  | nil => exact ⟨.inl rfl, refl n, fun _ none => (List.not_mem_nil none).elim⟩
  | cons x rest ih =>
    obtain ⟨one, bound, others⟩ := ih (op n (f x))
    obtain ⟨pick, left, right⟩ := picks n (f x)
    refine ⟨?_, trans bound left, List.forall_mem_cons.2 ⟨trans bound right, others⟩⟩
    obtain same | ⟨y, mem, same⟩ := one
    · obtain first | second := pick
      · exact .inl (same.trans first)
      · exact .inr ⟨x, List.mem_cons_self, same.trans second⟩
    · exact .inr ⟨y, List.mem_cons_of_mem _ mem, same⟩

/-! ### The image -/

/-- The load address of a space. -/
def base (o : LinkOutput) (s : Space) : Nat := (o.bases.get s).toNat

/-- The address behind a space. -/
def stop (o : LinkOutput) (s : Space) : Nat := Linker.stop o.bases o.segments s

/-- The address is one of the space. -/
def Takes (o : LinkOutput) (s : Space) (a : Nat) : Prop := o.base s ≤ a ∧ a < o.stop s

instance (o : LinkOutput) (s : Space) (a : Nat) : Decidable (o.Takes s a) := inferInstanceAs (Decidable (_ ∧ _))

/-- The space is loaded with the image: code or data, and not empty. -/
def InImage (o : LinkOutput) (s : Space) : Prop := s ≠ .zeroPage ∧ (o.segment s).size ≠ 0

/-- The spans of an image are the segments loaded with it, each at its base. -/
theorem mem_spans {x : Nat × Array UInt8} :
    x ∈ o.spans ↔ ∃ s, o.InImage s ∧ x = (o.base s, (o.segment s).bytes) := by
  have span (s : Space) : (let bytes := (o.segment s).bytes
      if bytes.isEmpty then none else some ((o.bases.get s).toNat, bytes)) = some x
        ↔ (o.segment s).size ≠ 0 ∧ x = (o.base s, (o.segment s).bytes) := by
    dsimp only
    split
    · rename_i empty
      have none : (o.segment s).size = 0 := Array.size_eq_zero_iff.2 (Array.isEmpty_iff.1 empty)
      exact ⟨fun h => (by cases h), fun h => (h.1 none).elim⟩
    · rename_i some
      have some : (o.segment s).size ≠ 0 := fun none => some (Array.isEmpty_iff.2 (Array.size_eq_zero_iff.1 none))
      exact ⟨fun h => ⟨some, (Option.some.inj h).symm⟩, fun h => congrArg _ h.2.symm⟩
  unfold spans
  rw [List.mem_filterMap]
  simp only [span, InImage, and_assoc]
  constructor
  · rintro ⟨s, mem, rest⟩
    refine ⟨s, ?_, rest⟩
    rintro rfl
    simp at mem
  · rintro ⟨s, image, rest⟩
    refine ⟨s, ?_, rest⟩
    cases s with
    | code | data => simp
    | zeroPage => exact (image rfl).elim

/-- The load image reaches from the least address of code and data to the greatest. It holds their bytes, and zero
between them. -/
structure IsImage (o : LinkOutput) (start : Nat) (bytes : Array UInt8) : Prop where
  first : ∃ s, o.InImage s ∧ start = o.base s
  least {s : Space} (h : o.InImage s) : start ≤ o.base s
  last : ∃ s, o.InImage s ∧ start + bytes.size = o.stop s
  greatest {s : Space} (h : o.InImage s) : o.stop s ≤ start + bytes.size
  byte {a : Nat} (low : start ≤ a) (high : a < start + bytes.size) :
    bytes[a - start]? =
      if o.Takes .code a then (o.segment .code).bytes[a - o.base .code]?
      else if o.Takes .data a then (o.segment .data).bytes[a - o.base .data]?
      else some 0

theorem size_ne_zero_of_takes {s : Space} {a : Nat} (h : o.Takes s a) : (o.segment s).size ≠ 0 := by
  intro empty
  have stop : o.stop s = o.base s + (o.segment s).size := rfl
  obtain ⟨low, high⟩ := h
  omega

/-- Without code and data the image is empty. -/
theorem image_of_empty (none : ∀ s, ¬ o.InImage s) : o.image = (o.bases.code, #[]) := by
  have spans : o.spans = [] := List.eq_nil_iff_forall_not_mem.2 fun x mem =>
    have ⟨s, image, _⟩ := mem_spans.1 mem
    none s image
  rw [LinkOutput.image, spans]

theorem image_of_spans {first : Nat × Array UInt8} {rest : List (Nat × Array UInt8)} (h : o.spans = first :: rest) :
    let start := rest.foldl (fun n x => min n x.1) first.1
    let stop := (first :: rest).foldl (fun n x => max n (x.1 + x.2.size)) start
    o.image = (UInt16.ofNat start, copied start (Array.replicate (stop - start) 0) (first :: rest)) := by
  intro start stop
  rw [LinkOutput.image, h]
  rfl

theorem pairwise_spans (apart : ∀ a, ¬ (o.Takes .code a ∧ o.Takes .data a)) :
    o.spans.Pairwise fun x y => ∀ a, Spans x a → ¬ Spans y a := by
  have pair : [Space.code, .data].Pairwise fun s t => ∀ a, o.Takes s a → ¬ o.Takes t a := by
    simpa using fun a h k => apart a ⟨h, k⟩
  refine pair.filterMap _ fun s t free x hx y hy a => ?_
  dsimp only at hx hy
  split at hx <;> cases hx
  split at hy <;> cases hy
  exact free a

/-- The spans of code and data, copied between their bounds, are the image. -/
theorem isImage_copied {stop : Nat} (member : ∀ x, x ∈ spans ↔ ∃ s, o.InImage s ∧ x = (o.base s, (o.segment s).bytes))
    (apart : spans.Pairwise fun x y => ∀ a, Spans x a → ¬ Spans y a)
    (least : (∃ x ∈ spans, start = x.1) ∧ ∀ x ∈ spans, start ≤ x.1)
    (greatest : (∃ x ∈ spans, stop = x.1 + x.2.size) ∧ ∀ x ∈ spans, x.1 + x.2.size ≤ stop) :
    o.IsImage start (copied start (Array.replicate (stop - start) 0) spans) := by
  obtain ⟨⟨x, inside, rfl⟩, least⟩ := least
  obtain ⟨⟨y, within, rfl⟩, greatest⟩ := greatest
  have le : x.1 ≤ y.1 + y.2.size := Nat.le_trans (least y within) (Nat.le_add_right ..)
  have room : ∀ z ∈ spans, Within x.1 (Array.replicate (y.1 + y.2.size - x.1) (0 : UInt8)).size z := by
    intro z mem
    have upper := greatest z mem
    rw [Array.size_replicate]
    exact ⟨least z mem, by omega⟩
  have size := size_copied room
  rw [Array.size_replicate] at size
  have mem {s : Space} (h : o.InImage s) : (o.base s, (o.segment s).bytes) ∈ spans := (member _).2 ⟨s, h, rfl⟩
  obtain ⟨s, image, start⟩ := (member x).1 inside
  obtain ⟨t, image', stop⟩ := (member y).1 within
  refine ⟨⟨s, image, by rw [start]⟩, fun h => least _ (mem h), ⟨t, image', ?_⟩, fun h => ?_, fun {a} low high => ?_⟩
  · rw [size, Nat.add_sub_cancel' le, stop]
    rfl
  · rw [size, Nat.add_sub_cancel' le]
    exact greatest _ (mem h)
  · have sum : x.1 + (a - x.1) = a := Nat.add_sub_cancel' low
    -- an address of a space that is loaded has its byte
    have taken {s : Space} (other : s ≠ .zeroPage) (takes : o.Takes s a) :
        (copied x.1 (Array.replicate (y.1 + y.2.size - x.1) 0) spans)[a - x.1]? = (o.segment s).bytes[a - o.base s]? := by
      have here : Spans (o.base s, (o.segment s).bytes) (x.1 + (a - x.1)) := sum.symm ▸ takes
      have byte := getElem?_copied_of_spans room apart (mem ⟨other, size_ne_zero_of_takes takes⟩) here
      rwa [sum] at byte
    by_cases code : o.Takes .code a
    · rw [if_pos code]
      exact taken (by decide) code
    · rw [if_neg code]
      by_cases data : o.Takes .data a
      · rw [if_pos data]
        exact taken (by decide) data
      · rw [if_neg data, getElem?_copied_of_not_spans room fun z mem here => ?_]
        · rw [Array.getElem?_replicate, if_pos (by omega)]
        · obtain ⟨s, ⟨other, -⟩, rfl⟩ := (member z).1 mem
          rw [sum] at here
          cases s with
          | code => exact code here
          | data => exact data here
          | zeroPage => exact other rfl

/-- If code and data share no address and one of them is not empty, what is built is their load image. -/
theorem isImage_image (apart : ∀ a, ¬ (o.Takes .code a ∧ o.Takes .data a)) (some : ∃ s, o.InImage s) :
    o.IsImage o.image.1.toNat o.image.2 := by
  obtain ⟨s, image⟩ := some
  cases listed : o.spans with
  | nil => exact (List.not_mem_nil (listed ▸ mem_spans.2 ⟨s, image, rfl⟩)).elim
  | cons x rest =>
    have whole := image_of_spans listed
    have shared := pairwise_spans apart
    have member (y : Nat × Array UInt8) := mem_spans (o := o) (x := y)
    rw [listed] at shared member
    obtain ⟨one, first, others⟩ := foldl_bound Nat.le_refl Nat.le_trans
      (fun a b => ⟨by omega, Nat.min_le_left a b, Nat.min_le_right a b⟩) (fun y : Nat × Array UInt8 => y.1) rest x.1
    generalize rest.foldl (fun n y => min n y.1) x.1 = start at whole one first others
    obtain ⟨last, above, greatest⟩ := foldl_bound (r := fun a b => b ≤ a) Nat.le_refl (fun h k => Nat.le_trans k h)
      (fun a b => ⟨by omega, Nat.le_max_left a b, Nat.le_max_right a b⟩)
      (fun y : Nat × Array UInt8 => y.1 + y.2.size) (x :: rest) start
    dsimp only at whole
    generalize (x :: rest).foldl (fun n y => max n (y.1 + y.2.size)) start = stop at whole last above greatest
    have least : (∃ y ∈ x :: rest, start = y.1) ∧ ∀ y ∈ x :: rest, start ≤ y.1 := by
      refine ⟨?_, List.forall_mem_cons.2 ⟨first, others⟩⟩
      obtain same | ⟨y, mem, same⟩ := one
      · exact ⟨x, List.mem_cons_self, same⟩
      · exact ⟨y, List.mem_cons_of_mem _ mem, same⟩
    have ends : ∃ y ∈ x :: rest, stop = y.1 + y.2.size := by
      refine last.resolve_left fun empty => ?_
      obtain ⟨t, ⟨-, some⟩, rfl⟩ := (member x).1 List.mem_cons_self
      have upper := greatest _ List.mem_cons_self
      rw [empty] at upper
      exact some (Nat.eq_zero_of_le_zero (Nat.le_of_add_le_add_left (Nat.le_trans upper first)))
    have word : (UInt16.ofNat start).toNat = start := by
      obtain ⟨⟨y, mem, rfl⟩, -⟩ := least
      obtain ⟨t, -, rfl⟩ := (member y).1 mem
      exact congrArg UInt16.toNat (UInt16.ofNat_toNat)
    rw [whole, word]
    exact isImage_copied member shared least ⟨ends, greatest⟩

end LinkOutput

namespace Linker

variable {l : Linker}

theorem laidApart_of_link {out : LinkOutput} (linked : l.link = .ok out) : LaidApart out.bases out.segments := by
  obtain ⟨clean, same⟩ := eq_of_link linked
  subst same
  have laid : l.finish = (l.pullAll.reportWanted.fixups.foldl applyFixup l.pullAll.reportWanted).checkLayout := rfl
  rw [laid] at clean ⊢
  have apart := laidApart_of_checkLayout clean
  rw [of_checkLayout clean]
  exact apart

/-- A link that succeeds gives no address to two spaces, has all of them in the memory, and ends the zero page segment
in the zero page. If there is code or data, the load image is between the least and the greatest of their addresses and
ends in the memory; otherwise it is empty, at the load address of the code. -/
theorem link_image {out : LinkOutput} (linked : l.link = .ok out) :
    (∀ s t a, out.Takes s a → out.Takes t a → s = t) ∧ (∀ s a, out.Takes s a → a < 0x10000)
      ∧ out.stop .zeroPage ≤ 0x100
      ∧ ((∃ s, out.InImage s) →
          out.IsImage out.image.1.toNat out.image.2 ∧ out.image.1.toNat + out.image.2.size ≤ 0x10000)
      ∧ ((∀ s, ¬ out.InImage s) → out.image = (out.bases.code, #[])) := by
  obtain ⟨zeroPage, inMemory, apart⟩ := laidApart_of_link linked
  have single : ∀ s t a, out.Takes s a → out.Takes t a → s = t := by
    intro s t a hs ht
    by_contra other
    have order := apart other (LinkOutput.size_ne_zero_of_takes hs) (LinkOutput.size_ne_zero_of_takes ht)
    obtain ⟨low, high⟩ : (out.bases.get s).toNat ≤ a ∧ a < stop out.bases out.segments s := hs
    obtain ⟨low', high'⟩ : (out.bases.get t).toNat ≤ a ∧ a < stop out.bases out.segments t := ht
    omega
  have codeOrData : ∀ a, ¬ (out.Takes .code a ∧ out.Takes .data a) := by
    intro a both
    cases single _ _ a both.1 both.2
  refine ⟨single, fun s a takes => ?_, zeroPage, fun some => ?_, LinkOutput.image_of_empty⟩
  · exact Nat.lt_of_lt_of_le takes.2 (inMemory (LinkOutput.size_ne_zero_of_takes takes))
  · have image := LinkOutput.isImage_image codeOrData some
    obtain ⟨s, ⟨-, size⟩, last⟩ := image.last
    exact ⟨image, last ▸ inMemory size⟩

/-- `nop` and `rts`, three bytes of data and a byte of the zero page. -/
def spread : Object := { segments := ⟨⟨#[0xea, 0x60]⟩, ⟨#[1, 2, 3]⟩, ⟨#[0]⟩⟩ }

/-- The code is loaded behind the data and ends with the memory. -/
theorem link_image_to_the_end :
    let bases : Bases := ⟨0xfffe, 0xfff0, 0xff⟩
    ∃ out, (load bases [.object "main" spread]).link = .ok out ∧ out.stop .zeroPage ≤ 0x100
      ∧ out.image = (0xfff0, #[1, 2, 3, 0, 0, 0, 0, 0, 0, 0, 0, 0, 0, 0, 0xea, 0x60])
      ∧ out.IsImage 0xfff0 out.image.2 := by
  intro bases
  have succeeds : ((load bases [.object "main" spread]).link.toOption.any fun out =>
      out.image == (0xfff0, #[1, 2, 3, 0, 0, 0, 0, 0, 0, 0, 0, 0, 0, 0, 0xea, 0x60])
        && (out.segment .code).size != 0) = true := by
    decide +kernel
  cases linked : (load bases [.object "main" spread]).link with
  | error => rw [linked] at succeeds; cases succeeds
  | ok out =>
    rw [linked] at succeeds
    simp only [Except.toOption, Option.any_some, Bool.and_eq_true, beq_iff_eq, bne_iff_ne] at succeeds
    obtain ⟨image, code⟩ := succeeds
    obtain ⟨-, -, zeroPage, whole, -⟩ := link_image linked
    have shown := (whole ⟨.code, by decide, code⟩).1
    have start : out.image.1.toNat = 0xfff0 := by
      rw [image]
      rfl
    rw [start] at shown
    exact ⟨out, rfl, zeroPage, image, shown⟩

end Linker

end Asm65
