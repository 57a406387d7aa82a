import Asm65.Assembly.Branch
import Mathlib.Data.List.Nodup
import Mathlib.Logic.Function.Basic

/-!
# Branches from pass to pass

What the code of a program becomes long depends on its branches alone. A `Piece` is a part of the code as the layout
sees it, a `Draft` what a pass knows of the layout when it comes to a piece: how much code there is, where labels are,
and what was decided about branches. `Piece.lay` goes on by a piece.

Every pass goes through the same pieces and starts with the labels and the decisions of the pass before. The main
result is `Fair.next`: no piece is longer in the next pass. It is carried by `Fair.honest`: what was decided to be in
reach is in reach where the pass ends up, also if it was estimated. The estimate of the next pass is just the distance
that this pass ends up with.
-/

namespace Asm65
set_option autoImplicit false

open Assembler (inReach corrected logged? distance)

/-- A part of the code. -/
inductive Piece where
  /-- Bytes, in every pass as many. -/
  | fixed (n : Nat)
  | label (id : SymbolId)
  /-- A branch of two bytes, or of `long` if it does not reach. -/
  | branch (pos : Position) (target : SymbolId) (long : Nat)
  /-- The test of a loop and the end of the loop right after it: a branch back to `top` if that reaches, and otherwise a
  branch to `exit`, after the jump back. -/
  | turn (pos : Position) (top body exit : SymbolId)

/-- The layout as far as a pass has come. -/
structure Draft where
  size : Nat
  /-- The places of labels, with the passes that gave them. -/
  table : SymbolId → Option (Address × Nat)
  log : Array ReachEntry

namespace Draft

variable (d : Draft) (last : Array ReachEntry) (pos : Position) (pass : Nat)

def address (id : SymbolId) : Address := ((d.table id).map (·.1)).getD .undefined

def here : UInt16 := .ofNat d.size

/-- Whether a branch from here is made short. -/
def fits (target : Address) : Bool :=
  !target.isUndefined && inReach (corrected (logged? last d.log.size pos) d.here target.value 2)

/-- How long a branch from here becomes. -/
def branchSize (target : Address) (long : Nat) : Nat := if d.fits last pos target then 2 else long

/-- Whether a short branch from here reaches a label that is already laid out. -/
def turnsAt (top : SymbolId) : Bool :=
  (d.address top).origin == .space .code && (d.address top).part == .word && (d.address top).value ≤ d.here
    && inReach (distance d.here (d.address top).value 2)

/-- After more bytes. -/
def skip (n : Nat) : Draft := { d with size := d.size + n }

/-- After a branch. -/
def branch (target : Address) (long : Nat) : Draft :=
  { d with
    size := d.size + d.branchSize last pos target long
    log := d.log.push ⟨pos, d.here, d.branchSize last pos target long⟩ }

/-- With a label here, unless the pass has placed it already. -/
def place (id : SymbolId) : Option Draft :=
  if (d.table id).map (·.2) = some pass then none
  else some { d with table := Function.update d.table id (some (.inSpace .code d.here, pass)) }

/-- Without a label. -/
def erase (id : SymbolId) : Draft := { d with table := Function.update d.table id none }

end Draft

namespace Piece

/-- Goes on by a piece; `last` is what the pass before decided. -/
def lay (last : Array ReachEntry) (pass : Nat) (d : Draft) : Piece → Option Draft
  | .fixed n => some (d.skip n)
  | .label id => d.place pass id
  | .branch pos target long => some (d.branch last pos (d.address target) long)
  | .turn pos top body exit =>
    if d.turnsAt top then ((d.branch last pos (d.address top) 5).place pass body).map (·.erase exit)
    else ((d.branch last pos (d.address exit) 5).place pass body).bind fun d => (d.skip 3).place pass exit

/-- Labels of a loop that nothing else refers to. -/
def own : Piece → List SymbolId
  | .turn _ _ body exit => [body, exit]
  | _ => []

/-- Labels that other pieces may refer to. -/
def shared : Piece → List SymbolId
  | .fixed _ => []
  | .label id => [id]
  | .branch _ target _ => [target]
  | .turn _ top _ _ => [top]

/-- Labels that are placed in a piece. -/
def placed : Piece → List SymbolId
  | .label id => [id]
  | p => p.own

/-- Where the source has the branch of a piece. -/
def site? : Piece → Option Position
  | .branch pos _ _ => some pos
  | .turn pos _ _ _ => some pos
  | _ => none

/-- How long the branch of a piece is. -/
def head (last : Array ReachEntry) (d : Draft) : Piece → Nat
  | .branch pos target long => d.branchSize last pos (d.address target) long
  | .turn pos top _ exit => d.branchSize last pos (d.address (if d.turnsAt top then top else exit)) 5
  | _ => 0

/-- How much comes after the branch. -/
def rest (d : Draft) : Piece → Nat
  | .fixed n => n
  | .turn _ top _ _ => if d.turnsAt top then 0 else 3
  | _ => 0

/-- Where in a piece a label is. -/
def spot (last : Array ReachEntry) (d : Draft) (id : SymbolId) : Piece → Option Nat
  | .turn pos top body exit =>
    let p := Piece.turn pos top body exit
    if id = body then some (p.head last d) else if d.turnsAt top then none else some (p.head last d + p.rest d)
  | _ => some 0

end Piece

/-- A test at the end of its loop, near the top. -/
theorem Piece.lay_turn_near {last : Array ReachEntry} {pass : Nat} {d d' : Draft} {pos : Position}
    {top body exit : SymbolId} (near : d.turnsAt top = true)
    (h : [branch pos top 5, label body].foldlM (lay last pass) d = some d') :
    [turn pos top body exit].foldlM (lay last pass) d = some (d'.erase exit) := by
  show (lay last pass d (turn pos top body exit)).bind some = _
  have placed : ((d.branch last pos (d.address top) 5).place pass body).bind some = some d' := h
  rw [Option.bind_fun_some] at placed
  rw [lay, if_pos near, placed]
  rfl

/-- A test at the end of its loop, far from the top, is a test and an end of the loop. -/
theorem Piece.lay_turn_far {last : Array ReachEntry} {pass : Nat} {d : Draft} {pos : Position}
    {top body exit : SymbolId} (far : d.turnsAt top = false) :
    [branch pos exit 5, label body, fixed 3, label exit].foldlM (lay last pass) d
      = lay last pass d (turn pos top body exit) := by
  rw [lay, if_neg (by rw [far]; decide)]
  show ((d.branch last pos (d.address exit) 5).place pass body).bind
    (fun d => ((d.skip 3).place pass exit).bind some) = _
  simp only [Option.bind_fun_some]

/-- A label is within its piece. -/
theorem Piece.spot_le_size (p : Piece) {last : Array ReachEntry} {d : Draft} {id : SymbolId} {n : Nat}
    (h : p.spot last d id = some n) : n ≤ p.head last d + p.rest d := by
  cases p with
  | fixed k | label k | branch pos k long =>
    cases h
    exact Nat.zero_le _
  | turn pos top body exit =>
    unfold Piece.spot at h
    dsimp only at h
    split at h
    · cases h
      exact Nat.le_add_right ..
    · split at h <;> cases h
      exact Nat.le_refl _

/-- What laying a piece does. -/
structure Laid (last : Array ReachEntry) (pass : Nat) (p : Piece) (d d' : Draft) : Prop where
  size : d'.size = d.size + (p.head last d + p.rest d)
  log : d'.log = p.site?.elim d.log fun pos => d.log.push ⟨pos, d.here, p.head last d⟩
  kept {id : SymbolId} (h : id ∉ p.placed) : d'.table id = d.table id
  placed {id : SymbolId} (h : id ∈ p.placed) :
    d'.table id = (p.spot last d id).map fun n => (.inSpace .code (.ofNat (d.size + n)), pass)
  fresh {id : SymbolId} (h : p = .label id) : (d.table id).map (·.2) ≠ some pass

namespace Draft

variable {d d' : Draft} {last : Array ReachEntry} {pos : Position} {pass : Nat} {id : SymbolId}

theorem of_place (h : d.place pass id = some d') :
    (d.table id).map (·.2) ≠ some pass
      ∧ d' = { d with table := Function.update d.table id (some (.inSpace .code d.here, pass)) } := by
  unfold place at h
  split at h
  · cases h
  · rename_i fresh
    exact ⟨fresh, (Option.some.inj h).symm⟩

theorem toNat_here (small : d.size < 0x10000) : d.here.toNat = d.size := UInt16.toNat_ofNat_of_lt' small

/-- A branch back is short if it reaches. -/
theorem fits_of_le {a : Nat} (back : a ≤ d.size) (small : d.size < 0x10000) :
    d.fits last pos (.inSpace .code (.ofNat a)) = decide (d.size + 2 ≤ a + 128) := by
  have target : (UInt16.ofNat a).toNat = a := UInt16.toNat_ofNat_of_lt' (by show a < 0x10000; omega)
  have ahead : ¬ d.here < UInt16.ofNat a := by
    rw [UInt16.lt_iff_toNat_lt, toNat_here small, target]
    omega
  have known : (Address.inSpace .code (.ofNat a)).isUndefined = false := rfl
  have value : (Address.inSpace .code (.ofNat a)).value = .ofNat a := rfl
  have offset : corrected (logged? last d.log.size pos) d.here (.ofNat a) 2 = distance d.here (.ofNat a) 2 :=
    if_neg ahead
  rw [fits, known, value, offset, distance, toNat_here small, target, inReach, Bool.not_false, Bool.true_and,
    ← Bool.decide_and]
  exact decide_eq_decide.2 (by omega)

/-- A branch ahead is short if it would have reached in the pass before. -/
theorem fits_of_lt {b h l : Nat} (ahead : d.size < b) (small : b < 0x10000) (room : h + l ≤ b)
    (entry : last[d.log.size]? = some ⟨pos, .ofNat h, l⟩) :
    d.fits last pos (.inSpace .code (.ofNat b)) = decide (b ≤ h + l + 127) := by
  have target : (UInt16.ofNat b).toNat = b := UInt16.toNat_ofNat_of_lt' small
  have before : (UInt16.ofNat h).toNat = h := UInt16.toNat_ofNat_of_lt' (by show h < 0x10000; omega)
  have here : d.here.toNat = d.size := toNat_here (by omega)
  have known : (Address.inSpace .code (.ofNat b)).isUndefined = false := rfl
  have value : (Address.inSpace .code (.ofNat b)).value = .ofNat b := rfl
  have logged : logged? last d.log.size pos = some ⟨pos, .ofNat h, l⟩ := by simp [logged?, entry]
  have less : d.here < UInt16.ofNat b := by rwa [UInt16.lt_iff_toNat_lt, here, target]
  rw [fits, known, value, logged, corrected, if_pos less, Bool.not_false, Bool.true_and]
  dsimp only
  rw [distance, here, target, before, inReach, ← Bool.decide_and]
  exact decide_eq_decide.2 (by omega)

theorem address_of_table {a : Address} {k : Nat} (h : d.table id = some (a, k)) : d.address id = a := by
  rw [address, h]
  rfl

theorem fits_of_none (h : d.table id = none) : d.fits last pos (d.address id) = false := by
  rw [fits, address, h]
  rfl

theorem turnsAt_of_none (h : d.table id = none) : d.turnsAt id = false := by
  rw [turnsAt, address, h]
  rfl

theorem turnsAt_of_le {a k : Nat} (h : d.table id = some (.inSpace .code (.ofNat a), k)) (back : a ≤ d.size)
    (small : d.size < 0x10000) : d.turnsAt id = decide (d.size + 2 ≤ a + 128) := by
  have target : (UInt16.ofNat a).toNat = a := UInt16.toNat_ofNat_of_lt' (by show a < 0x10000; omega)
  have reached : UInt16.ofNat a ≤ d.here := by rwa [UInt16.le_iff_toNat_le, toNat_here small, target]
  rw [turnsAt, address_of_table h]
  show ((true && decide (UInt16.ofNat a ≤ d.here)) && inReach (distance d.here (.ofNat a) 2)) = _
  rw [decide_eq_true reached, distance, toNat_here small, target, inReach, Bool.true_and, Bool.true_and,
    ← Bool.decide_and]
  exact decide_eq_decide.2 (by omega)

theorem turnsAt_of_lt {a k : Nat} (h : d.table id = some (.inSpace .code (.ofNat a), k)) (ahead : d.size < a)
    (small : a < 0x10000) : d.turnsAt id = false := by
  have target : (UInt16.ofNat a).toNat = a := UInt16.toNat_ofNat_of_lt' small
  have missed : ¬ UInt16.ofNat a ≤ d.here := by
    rw [UInt16.le_iff_toNat_le, toNat_here (by omega), target]
    omega
  rw [turnsAt, address_of_table h]
  show ((true && decide (UInt16.ofNat a ≤ d.here)) && inReach (distance d.here (.ofNat a) 2)) = _
  rw [decide_eq_false missed]
  rfl

end Draft

/-- A branch that turns back is short. -/
theorem Draft.fits_of_turnsAt {d : Draft} {last : Array ReachEntry} {pos : Position} {id : SymbolId}
    (turns : d.turnsAt id = true) : d.fits last pos (d.address id) = true := by
  simp only [turnsAt, Bool.and_eq_true, beq_iff_eq, decide_eq_true_eq] at turns
  obtain ⟨⟨⟨origin, -⟩, back⟩, reached⟩ := turns
  have known : (d.address id).isUndefined = false := by simp [Address.isUndefined, origin]
  have offset : corrected (logged? last d.log.size pos) d.here (d.address id).value 2 =
    distance d.here (d.address id).value 2 := if_neg (UInt16.not_lt.2 back)
  rw [fits, known, offset, reached]
  rfl

/-- A test at the end of its loop places or erases its two labels, and no other. -/
theorem laid_turn {last : Array ReachEntry} {pass : Nat} {d d' : Draft} {pos : Position} {top body exit : SymbolId}
    {x y : Option (Address × Nat)} (distinct : body ≠ exit)
    (size : d'.size = d.size + ((Piece.turn pos top body exit).head last d + (Piece.turn pos top body exit).rest d))
    (log : d'.log = d.log.push ⟨pos, d.here, (Piece.turn pos top body exit).head last d⟩)
    (table : d'.table = Function.update (Function.update d.table body x) exit y)
    (first : x = ((Piece.turn pos top body exit).spot last d body).map
      fun n => (.inSpace .code (.ofNat (d.size + n)), pass))
    (second : y = ((Piece.turn pos top body exit).spot last d exit).map
      fun n => (.inSpace .code (.ofNat (d.size + n)), pass)) :
    Laid last pass (.turn pos top body exit) d d' := by
  refine ⟨size, log, fun {id} other => ?_, fun {id} mem => ?_, fun same => (by cases same)⟩
  · have other : id ≠ body ∧ id ≠ exit := by simpa [Piece.placed, Piece.own] using other
    rw [table, Function.update_of_ne other.2, Function.update_of_ne other.1]
  · obtain rfl | rfl : id = body ∨ id = exit := by simpa [Piece.placed, Piece.own] using mem
    · rw [table, Function.update_of_ne distinct, Function.update_self, first]
    · rw [table, Function.update_self, second]

/-- A piece that can be laid is laid as its kind says. -/
theorem laid_of_lay {last : Array ReachEntry} {pass : Nat} {p : Piece} {d d' : Draft} (apart : p.own.Nodup)
    (h : p.lay last pass d = some d') : Laid last pass p d d' := by
  cases p with
  | fixed n =>
    cases h
    exact ⟨by simp [Draft.skip, Piece.head, Piece.rest], rfl, fun _ => rfl, fun h => (by cases h),
      fun h => (by cases h)⟩
  | label id =>
    obtain ⟨fresh, rfl⟩ := Draft.of_place h
    refine ⟨rfl, rfl, fun other => ?_, fun same => ?_, fun same => ?_⟩
    · exact Function.update_of_ne (fun same => other (by simp [Piece.placed, same])) ..
    · obtain rfl := List.mem_singleton.1 same
      exact Function.update_self ..
    · cases same
      exact fresh
  | branch pos target long =>
    cases h
    exact ⟨rfl, rfl, fun _ => rfl, fun h => (by cases h), fun h => (by cases h)⟩
  | turn pos top body exit =>
    have distinct : body ≠ exit := by simpa [Piece.own] using apart
    rw [Piece.lay] at h
    split at h
    · rename_i turns
      obtain ⟨u, placed, rfl⟩ := Option.map_eq_some_iff.1 h
      obtain ⟨-, rfl⟩ := Draft.of_place placed
      refine laid_turn distinct ?_ ?_ rfl ?_ ?_
      · simp [Draft.erase, Draft.branch, Piece.head, Piece.rest, turns]
      · simp [Draft.erase, Draft.branch, Piece.head, turns]
      · simp [Piece.spot, Piece.head, turns, Draft.here, Draft.branch]
      · simp [Piece.spot, distinct.symm, turns]
    · rename_i ahead
      obtain ⟨u, placed, rest⟩ := Option.bind_eq_some_iff.1 h
      obtain ⟨-, rfl⟩ := Draft.of_place placed
      obtain ⟨-, rfl⟩ := Draft.of_place rest
      refine laid_turn distinct ?_ ?_ rfl ?_ ?_
      · simp [Draft.skip, Draft.branch, Piece.head, Piece.rest, ahead, Nat.add_assoc]
      · simp [Draft.skip, Draft.branch, Piece.head, ahead]
      · simp [Piece.spot, Piece.head, ahead, Draft.here, Draft.branch]
      · simp [Piece.spot, Piece.head, Piece.rest, distinct.symm, ahead, Draft.here, Draft.branch, Draft.skip,
          Nat.add_assoc]

/-- The long form of a branch is not the shorter one. -/
def Piece.Roomy : Piece → Prop
  | .branch _ _ long => 2 ≤ long
  | _ => True

/-- Pieces each of which keeps the labels of its own loop to itself. -/
structure Separate (ps : List Piece) : Prop where
  roomy : ∀ p ∈ ps, p.Roomy
  once : (ps.flatMap Piece.own).Nodup
  apart {id : SymbolId} (h : id ∈ ps.flatMap Piece.own) : id ∉ ps.flatMap Piece.shared

/-- A pass: `D j` is the layout in front of piece `j`. -/
structure Lays (ps : List Piece) (last : Array ReachEntry) (pass : Nat) (D : Nat → Draft) : Prop where
  size : (D 0).size = 0
  log : (D 0).log = #[]
  step {j : Nat} {p : Piece} (h : ps[j]? = some p) : Laid last pass p (D j) (D (j + 1))

theorem Piece.mem_placed {p : Piece} {id : SymbolId} : id ∈ p.placed ↔ p = .label id ∨ id ∈ p.own := by
  cases p <;> simp [placed, own, eq_comm]

theorem Piece.mem_placed_label (id : SymbolId) : id ∈ (Piece.label id).placed := List.mem_singleton.2 rfl

theorem Piece.mem_shared_label (id : SymbolId) : id ∈ (Piece.label id).shared := List.mem_singleton.2 rfl

namespace Separate

variable {ps : List Piece} {p q : Piece} {i j : Nat} {id : SymbolId}

theorem not_shared (separate : Separate ps) (hp : p ∈ ps) (hq : q ∈ ps) (own : id ∈ p.own) : id ∉ q.shared :=
  fun shared => separate.apart (List.mem_flatMap.2 ⟨p, hp, own⟩) (List.mem_flatMap.2 ⟨q, hq, shared⟩)

theorem eq_of_own (separate : Separate ps) (hi : ps[i]? = some p) (hj : ps[j]? = some q) (own : id ∈ p.own)
    (own' : id ∈ q.own) : i = j := by
  have disjoint := List.pairwise_iff_getElem.1 (List.nodup_flatMap.1 separate.once).2
  obtain ⟨first, rfl⟩ := List.getElem?_eq_some_iff.1 hi
  obtain ⟨second, rfl⟩ := List.getElem?_eq_some_iff.1 hj
  obtain less | same | more := Nat.lt_trichotomy i j
  · exact (disjoint i j first second less own own').elim
  · exact same
  · exact (disjoint j i second first more own' own).elim

end Separate

namespace Lays

variable {ps : List Piece} {last last' : Array ReachEntry} {pass pass' : Nat} {D E : Nat → Draft} {i j m n : Nat}
  {p : Piece} {pos : Position} {id : SymbolId}

/-- Every place in a list but its end has a piece. -/
theorem exists_piece (within : j < ps.length) : ∃ p, ps[j]? = some p := ⟨_, List.getElem?_eq_getElem within⟩

theorem size_le (lays : Lays ps last pass D) (le : i ≤ j) (within : j ≤ ps.length) : (D i).size ≤ (D j).size := by
  induction le with
  | refl => exact Nat.le_refl _
  | @step j le ih =>
    obtain ⟨p, at_⟩ := exists_piece within
    show _ ≤ (D (j + 1)).size
    rw [(lays.step at_).size]
    exact Nat.le_add_right_of_le (ih (Nat.le_of_succ_le within))

/-- A label that is not placed on the way stays where it is. -/
theorem table_eq (lays : Lays ps last pass D) (le : i ≤ j) (within : j ≤ ps.length)
    (none : ∀ k p, i ≤ k → k < j → ps[k]? = some p → id ∉ p.placed) : (D j).table id = (D i).table id := by
  induction le with
  | refl => rfl
  | @step j le ih =>
    obtain ⟨p, at_⟩ := exists_piece within
    rw [(lays.step at_).kept (none j p le (Nat.lt_succ_self j) at_)]
    exact ih (Nat.le_of_succ_le within) fun k p branch upTo => none k p branch (Nat.lt_succ_of_lt upTo)

/-- A label stays where it was placed: if it were placed again, that would be refused. -/
theorem table_after (lays : Lays ps last pass D) (separate : Separate ps) (at_ : ps[m]? = some p) (mem : id ∈ p.placed)
    (after : m < j) (within : j ≤ ps.length) : (D j).table id = (D (m + 1)).table id := by
  induction after with
  | refl => rfl
  | @step k after ih =>
    have before := ih (Nat.le_of_succ_le within)
    obtain ⟨q, next⟩ := exists_piece within
    rw [(lays.step next).kept, before]
    intro again
    have hp := List.mem_of_getElem? at_
    have hq := List.mem_of_getElem? next
    obtain rfl | own := Piece.mem_placed.1 mem
    · obtain rfl | own' := Piece.mem_placed.1 again
      · refine (lays.step next).fresh rfl ?_
        rw [before, (lays.step at_).placed mem]
        rfl
      · exact separate.not_shared hq hp own' (Piece.mem_shared_label id)
    · obtain rfl | own' := Piece.mem_placed.1 again
      · exact separate.not_shared hp hq own (Piece.mem_shared_label id)
      · exact Nat.ne_of_lt after (separate.eq_of_own at_ next own own')

/-- A label is placed in one piece only. -/
theorem eq_of_placed (lays : Lays ps last pass D) (separate : Separate ps) {q : Piece} (hi : ps[i]? = some p)
    (hj : ps[j]? = some q) (mem : id ∈ p.placed) (mem' : id ∈ q.placed) : i = j := by
  have hp := List.mem_of_getElem? hi
  have hq := List.mem_of_getElem? hj
  have once {i j : Nat} (hi : ps[i]? = some (.label id)) (hj : ps[j]? = some (.label id)) : ¬ i < j := by
    intro less
    have within := (List.getElem?_eq_some_iff.1 hj).1
    refine (lays.step hj).fresh rfl ?_
    rw [lays.table_after separate hi (Piece.mem_placed_label id) less (Nat.le_of_lt within),
      (lays.step hi).placed (Piece.mem_placed_label id)]
    rfl
  obtain rfl | own := Piece.mem_placed.1 mem
  · obtain rfl | own' := Piece.mem_placed.1 mem'
    · exact Nat.le_antisymm (Nat.not_lt.1 (once hj hi)) (Nat.not_lt.1 (once hi hj))
    · exact (separate.not_shared hq hp own' (Piece.mem_shared_label id)).elim
  · obtain rfl | own' := Piece.mem_placed.1 mem'
    · exact (separate.not_shared hp hq own (Piece.mem_shared_label id)).elim
    · exact separate.eq_of_own hi hj own own'

/-- Until it is placed, a label is where the pass before left it. -/
theorem table_before (lays : Lays ps last pass D) (separate : Separate ps) (at_ : ps[m]? = some p)
    (mem : id ∈ p.placed) (before : j ≤ m) : (D j).table id = (D 0).table id := by
  have within := (List.getElem?_eq_some_iff.1 at_).1
  refine lays.table_eq (Nat.zero_le j) (by omega) fun k q _ less here again => ?_
  have same := lays.eq_of_placed separate here at_ again mem
  omega

theorem table_unplaced (lays : Lays ps last pass D) (none : ∀ p ∈ ps, id ∉ p.placed) (within : j ≤ ps.length) :
    (D j).table id = (D 0).table id :=
  lays.table_eq (Nat.zero_le j) within fun _ p _ _ here => none p (List.mem_of_getElem? here)

/-- Where a label is at the end of a pass. -/
theorem table_end (lays : Lays ps last pass D) (separate : Separate ps) (at_ : ps[m]? = some p) (mem : id ∈ p.placed) :
    (D ps.length).table id =
      (p.spot last (D m) id).map fun n => (.inSpace .code (.ofNat ((D m).size + n)), pass) := by
  rw [lays.table_after separate at_ mem (List.getElem?_eq_some_iff.1 at_).1 (Nat.le_refl _), (lays.step at_).placed mem]

/-- Where a label is once it is placed. -/
theorem table_label (lays : Lays ps last pass D) (separate : Separate ps) (at_ : ps[m]? = some (.label id))
    (after : m < j) (within : j ≤ ps.length) :
    (D j).table id = some (.inSpace .code (.ofNat (D m).size), pass) := by
  rw [lays.table_after separate at_ (Piece.mem_placed_label id) after within,
    (lays.step at_).placed (Piece.mem_placed_label id)]
  rfl

/-- Nothing is dated later than the pass. -/
theorem le_of_table (lays : Lays ps last pass D) (dated : ∀ {id a k}, (D 0).table id = some (a, k) → k < pass)
    {a : Address} {k : Nat} (within : j ≤ ps.length) (h : (D j).table id = some (a, k)) : k ≤ pass := by
  induction j with
  | zero => exact Nat.le_of_lt (dated h)
  | succ j ih =>
    obtain ⟨p, at_⟩ := exists_piece within
    by_cases mem : id ∈ p.placed
    · rw [(lays.step at_).placed mem] at h
      obtain ⟨n, -, same⟩ := Option.map_eq_some_iff.1 h
      exact Nat.le_of_eq (Prod.mk.inj same).2.symm
    · rw [(lays.step at_).kept mem] at h
      exact ih (Nat.le_of_succ_le within) h

/-- Passes log the same branches. -/
theorem size_log (lays : Lays ps last pass D) (lays' : Lays ps last' pass' E) (within : j ≤ ps.length) :
    (E j).log.size = (D j).log.size := by
  induction j with
  | zero => rw [lays.log, lays'.log]
  | succ j ih =>
    obtain ⟨p, at_⟩ := exists_piece within
    rw [(lays.step at_).log, (lays'.step at_).log]
    cases p.site? with
    | none => exact ih (Nat.le_of_succ_le within)
    | some pos => simp only [Option.elim_some, Array.size_push, ih (Nat.le_of_succ_le within)]

/-- What is logged about a branch stays. -/
theorem entry (lays : Lays ps last pass D) (at_ : ps[m]? = some p) (site : p.site? = some pos) (after : m < j)
    (within : j ≤ ps.length) : (D j).log[(D m).log.size]? = some ⟨pos, (D m).here, p.head last (D m)⟩ := by
  induction after with
  | refl =>
    rw [(lays.step at_).log, site]
    exact Array.getElem?_push_size
  | @step k after ih =>
    obtain ⟨q, next⟩ := exists_piece within
    have before := ih (Nat.le_of_succ_le within)
    rw [(lays.step next).log]
    cases q.site? with
    | none => exact before
    | some pos =>
      have less := (Array.getElem?_eq_some_iff.1 before).1
      rw [Option.elim_some, Array.getElem?_push, if_neg (Nat.ne_of_lt less)]
      exact before

end Lays

/-- A pass of a run. Labels to come are not below the places that they get, and branches made short are in reach. -/
structure Fair (ps : List Piece) (last : Array ReachEntry) (pass : Nat) (D : Nat → Draft) : Prop
    extends Lays ps last pass D where
  small : (D ps.length).size < 0x10000
  dated {id : SymbolId} {a : Address} {k : Nat} (h : (D 0).table id = some (a, k)) : k < pass
  blank {id : SymbolId} (h : ∀ p ∈ ps, id ∉ p.placed) : (D 0).table id = none
  above {m : Nat} {id : SymbolId} (h : ps[m]? = some (.label id)) : (D 0).table id = none
    ∨ ∃ a k, (D 0).table id = some (.inSpace .code (.ofNat a), k) ∧ (D m).size ≤ a ∧ a < 0x10000
  honest {n m : Nat} {pos : Position} {id : SymbolId} {long : Nat} (branch : ps[n]? = some (.branch pos id long))
    (label : ps[m]? = some (.label id)) (ahead : n < m) (short : (D n).fits last pos ((D n).address id) = true) :
    (D m).size ≤ (D (n + 1)).size + 127

/-- The next pass goes on from what a pass leaves. -/
structure Follows (ps : List Piece) (pass : Nat) (D E : Nat → Draft) : Prop
    extends Lays ps (D ps.length).log (pass + 1) E where
  table : (E 0).table = (D ps.length).table

/-- No stretch of code up to piece `n` is longer in the next pass. -/
def Shrinks (D E : Nat → Draft) (n : Nat) : Prop :=
  ∀ i j, i ≤ j → j ≤ n → (E j).size + (D i).size ≤ (D j).size + (E i).size

theorem Shrinks.succ {D E : Nat → Draft} {n : Nat} (h : Shrinks D E n)
    (last : (E (n + 1)).size + (D n).size ≤ (D (n + 1)).size + (E n).size) : Shrinks D E (n + 1) := by
  intro i j le within
  obtain within | rfl : j ≤ n ∨ j = n + 1 := by omega
  · exact h i j le within
  · obtain le | rfl : i ≤ n ∨ i = n + 1 := by omega
    · have before := h i n le (Nat.le_refl n)
      omega
    · omega

namespace Draft

variable {d : Draft} {last : Array ReachEntry} {pos : Position}

theorem branchSize_of_fits {a : Address} (short : d.fits last pos a = true) (long : Nat) :
    d.branchSize last pos a long = 2 := if_pos short

theorem two_le_branchSize (a : Address) {long : Nat} (two : 2 ≤ long) : 2 ≤ d.branchSize last pos a long := by
  unfold branchSize
  split
  · exact Nat.le_refl 2
  · exact two

end Draft

namespace Fair

variable {ps : List Piece} {last : Array ReachEntry} {pass : Nat} {D E : Nat → Draft} {m n : Nat} {p : Piece}
  {pos : Position} {id : SymbolId} {long : Nat}

section Step

variable (fair : Fair ps last pass D) (separate : Separate ps) (follows : Follows ps pass D E)
include fair

theorem size_lt (within : n ≤ ps.length) : (D n).size < 0x10000 :=
  Nat.lt_of_le_of_lt (fair.size_le within (Nat.le_refl _)) fair.small

theorem le_of_shrinks (follows : Follows ps pass D E) (shrinks : Shrinks D E n) : (E n).size ≤ (D n).size := by
  have less := shrinks 0 n (Nat.zero_le n) (Nat.le_refl n)
  rw [fair.size, follows.size] at less
  exact less

include separate

/-- A label that pieces share is placed as a piece of its own, or nowhere. -/
theorem label_or_none (at_ : ps[n]? = some p) (shared : id ∈ p.shared) :
    (∃ m : Nat, ps[m]? = some (.label id)) ∨ (D n).table id = none := by
  by_cases placed : ∃ m : Nat, ps[m]? = some (.label id)
  · exact .inl placed
  · refine .inr ?_
    have none : ∀ q ∈ ps, id ∉ q.placed := by
      intro q hq mem
      obtain rfl | own := Piece.mem_placed.1 mem
      · exact placed (List.mem_iff_getElem?.1 hq)
      · exact separate.not_shared hq (List.mem_of_getElem? at_) own shared
    rw [fair.table_unplaced none (Nat.le_of_lt (List.getElem?_eq_some_iff.1 at_).1), fair.blank none]

include follows

/-- The next pass estimates how far it is to a label ahead as this pass has it. -/
theorem fits_ahead (branch : ps[n]? = some (.branch pos id long)) (label : ps[m]? = some (.label id)) (ahead : n < m)
    (shrinks : Shrinks D E n) : (E n).fits (D ps.length).log pos ((E n).address id) =
      decide ((D m).size ≤ (D (n + 1)).size + 127) := by
  have withinM := (List.getElem?_eq_some_iff.1 label).1
  have withinN := (List.getElem?_eq_some_iff.1 branch).1
  have two : 2 ≤ Piece.head last (D n) (.branch pos id long) :=
    Draft.two_le_branchSize _ (separate.roomy _ (List.mem_of_getElem? branch))
  have size := (fair.step branch).size
  have later := fair.size_le (show n + 1 ≤ m from ahead) (Nat.le_of_lt withinM)
  have less := fair.le_of_shrinks follows shrinks
  have place := (follows.table_before separate label (Piece.mem_placed_label id) (Nat.le_of_lt ahead)).trans
    ((congrFun follows.table id).trans (fair.table_label separate label withinM (Nat.le_refl _)))
  have entry := fair.entry branch rfl withinN (Nat.le_refl _)
  rw [← fair.size_log follows.toLays (Nat.le_of_lt withinN)] at entry
  have rest : Piece.rest (D n) (.branch pos id long) = 0 := rfl
  rw [Draft.address_of_table place, Draft.fits_of_lt (by omega) (fair.size_lt (Nat.le_of_lt withinM)) (by omega) entry]
  exact decide_eq_decide.2 (by omega)

/-- A branch that is short stays short. -/
theorem fits_next (branch : ps[n]? = some (.branch pos id long)) (shrinks : Shrinks D E n)
    (short : (D n).fits last pos ((D n).address id) = true) :
    (E n).fits (D ps.length).log pos ((E n).address id) = true := by
  have within := (List.getElem?_eq_some_iff.1 branch).1
  obtain ⟨m, label⟩ | none := fair.label_or_none separate branch (List.mem_singleton.2 rfl)
  · obtain back | rfl | ahead := Nat.lt_trichotomy m n
    · have back' := Nat.le_of_lt back
      have place := fair.table_label separate label back (Nat.le_of_lt within)
      have place' := follows.table_label separate label back (Nat.le_of_lt within)
      have less := fair.le_of_shrinks follows shrinks
      have small := fair.size_lt (Nat.le_of_lt within)
      rw [Draft.address_of_table place, Draft.fits_of_le (fair.size_le back' (Nat.le_of_lt within)) small,
        decide_eq_true_eq] at short
      have between := shrinks m n back' (Nat.le_refl n)
      rw [Draft.address_of_table place', Draft.fits_of_le (follows.size_le back' (Nat.le_of_lt within)) (by omega)]
      exact decide_eq_true (by omega)
    · cases branch.symm.trans label
    · rw [fair.fits_ahead separate follows branch label ahead shrinks]
      exact decide_eq_true (fair.honest branch label ahead short)
  · rw [Draft.fits_of_none none] at short
    cases short

/-- A loop that turns with its test still does. -/
theorem turnsAt_next {body exit : SymbolId} (at_ : ps[n]? = some (.turn pos id body exit)) (shrinks : Shrinks D E n)
    (turns : (D n).turnsAt id = true) : (E n).turnsAt id = true := by
  have within := (List.getElem?_eq_some_iff.1 at_).1
  obtain ⟨m, label⟩ | none := fair.label_or_none separate at_ (List.mem_singleton.2 rfl)
  · obtain back | rfl | ahead := Nat.lt_trichotomy m n
    · have back' := Nat.le_of_lt back
      have place := fair.table_label separate label back (Nat.le_of_lt within)
      have place' := follows.table_label separate label back (Nat.le_of_lt within)
      have less := fair.le_of_shrinks follows shrinks
      have small := fair.size_lt (Nat.le_of_lt within)
      rw [Draft.turnsAt_of_le place (fair.size_le back' (Nat.le_of_lt within)) small, decide_eq_true_eq] at turns
      have between := shrinks m n back' (Nat.le_refl n)
      rw [Draft.turnsAt_of_le place' (follows.size_le back' (Nat.le_of_lt within)) (by omega)]
      exact decide_eq_true (by omega)
    · cases at_.symm.trans label
    · -- the top of a loop that is still to come is not behind
      have withinM := (List.getElem?_eq_some_iff.1 label).1
      have old := fair.table_before separate label (Piece.mem_placed_label id) (Nat.le_of_lt ahead)
      obtain none | ⟨a, k, place, above, small⟩ := fair.above label
      · rw [Draft.turnsAt_of_none (old.trans none)] at turns
        cases turns
      · have two : 2 ≤ Piece.head last (D n) (.turn pos id body exit) := Draft.two_le_branchSize _ (by decide)
        have size := (fair.step at_).size
        have later := fair.size_le (show n + 1 ≤ m from ahead) (Nat.le_of_lt withinM)
        rw [Draft.turnsAt_of_lt (old.trans place) (by omega) small] at turns
        cases turns
  · rw [Draft.turnsAt_of_none none] at turns
    cases turns

/-- If a loop does not turn with its test in either pass, the branch past the jump back is short in the next. -/
theorem fits_exit {top body exit : SymbolId} (at_ : ps[n]? = some (.turn pos top body exit)) (shrinks : Shrinks D E n)
    (goesOn : (D n).turnsAt top = false) :
    (E n).fits (D ps.length).log pos ((E n).address exit) = true := by
  have within := (List.getElem?_eq_some_iff.1 at_).1
  have two : 2 ≤ Piece.head last (D n) (.turn pos top body exit) := Draft.two_le_branchSize _ (by decide)
  have size := (fair.step at_).size
  have less := fair.le_of_shrinks follows shrinks
  have mem : exit ∈ (Piece.turn pos top body exit).placed := List.mem_cons_of_mem _ (List.mem_singleton.2 rfl)
  have distinct : exit ≠ body := by
    have nodup := (List.nodup_flatMap.1 separate.once).1 _ (List.mem_of_getElem? at_)
    exact fun same => (List.nodup_cons.1 nodup).1 (List.mem_singleton.2 same.symm)
  have place := (follows.table_before separate at_ mem (Nat.le_refl n)).trans
    ((congrFun follows.table exit).trans (fair.table_end separate at_ mem))
  have spot : Piece.spot last (D n) exit (.turn pos top body exit) =
      some (Piece.head last (D n) (.turn pos top body exit) + Piece.rest (D n) (.turn pos top body exit)) := by
    simp [Piece.spot, distinct, goesOn]
  have rest : Piece.rest (D n) (.turn pos top body exit) = 3 := by simp [Piece.rest, goesOn]
  rw [spot] at place
  have entry := fair.entry at_ rfl within (Nat.le_refl _)
  rw [← fair.size_log follows.toLays (Nat.le_of_lt within)] at entry
  have small := fair.size_lt (show n + 1 ≤ ps.length from within)
  rw [Draft.address_of_table place, Draft.fits_of_lt (by omega) (by omega) (by omega) entry]
  exact decide_eq_true (by omega)

/-- No piece is longer in the next pass, in neither of its parts. -/
theorem parts_le (at_ : ps[n]? = some p) (shrinks : Shrinks D E n) :
    p.head (D ps.length).log (E n) ≤ p.head last (D n) ∧ p.rest (E n) ≤ p.rest (D n) := by
  cases p with
  | fixed k => exact ⟨Nat.le_refl _, Nat.le_refl _⟩
  | label id => exact ⟨Nat.le_refl _, Nat.le_refl _⟩
  | branch pos id long =>
    refine ⟨?_, Nat.le_refl _⟩
    cases short : (D n).fits last pos ((D n).address id) with
    | true =>
      rw [Piece.head, Piece.head, Draft.branchSize_of_fits short]
      exact Nat.le_of_eq (Draft.branchSize_of_fits (fair.fits_next separate follows at_ shrinks short) long)
    | false =>
      have two : 2 ≤ long := separate.roomy _ (List.mem_of_getElem? at_)
      rw [Piece.head, Piece.head, Draft.branchSize, Draft.branchSize, short]
      split
      · exact two
      · exact Nat.le_refl _
  | turn pos top body exit =>
    have two : 2 ≤ Piece.head last (D n) (.turn pos top body exit) := Draft.two_le_branchSize _ (by decide)
    cases turns : (E n).turnsAt top with
    | true =>
      have head : Piece.head (D ps.length).log (E n) (.turn pos top body exit) = 2 := by
        rw [Piece.head, turns]
        exact Draft.branchSize_of_fits (Draft.fits_of_turnsAt turns) 5
      have rest : Piece.rest (E n) (.turn pos top body exit) = 0 := by simp [Piece.rest, turns]
      rw [head, rest]
      exact ⟨two, Nat.zero_le _⟩
    | false =>
      have goesOn : (D n).turnsAt top = false := by
        cases before : (D n).turnsAt top with
        | false => rfl
        | true => exact (fair.turnsAt_next separate follows at_ shrinks before).symm.trans turns
      have head : Piece.head (D ps.length).log (E n) (.turn pos top body exit) = 2 := by
        rw [Piece.head, turns]
        exact Draft.branchSize_of_fits (fair.fits_exit separate follows at_ shrinks goesOn) 5
      have rest : Piece.rest (E n) (.turn pos top body exit) = Piece.rest (D n) (.turn pos top body exit) := by
        simp [Piece.rest, turns, goesOn]
      rw [head, rest]
      exact ⟨two, Nat.le_refl _⟩

theorem shrinks (within : n ≤ ps.length) : Shrinks D E n := by
  induction n with
  | zero =>
    intro i j le zero
    obtain rfl := Nat.le_zero.1 zero
    obtain rfl := Nat.le_zero.1 le
    omega
  | succ n ih =>
    have before := ih (Nat.le_of_succ_le within)
    obtain ⟨p, at_⟩ := Lays.exists_piece within
    obtain ⟨head, rest⟩ := fair.parts_le separate follows at_ before
    have size := (fair.step at_).size
    have size' := (follows.step at_).size
    exact before.succ (by omega)

theorem size_next_le (within : n ≤ ps.length) : (E n).size ≤ (D n).size :=
  fair.le_of_shrinks follows (fair.shrinks separate follows within)

/-- The next pass is of the same kind. -/
theorem next : Fair ps (D ps.length).log (pass + 1) E where
  toLays := follows.toLays
  small := Nat.lt_of_le_of_lt (fair.size_next_le separate follows (Nat.le_refl _)) fair.small
  dated h := by
    rw [follows.table] at h
    exact Nat.lt_succ_of_le (fair.le_of_table fair.dated (Nat.le_refl _) h)
  blank none := by rw [follows.table, fair.table_unplaced none (Nat.le_refl _), fair.blank none]
  above {m id} at_ := by
    have within := (List.getElem?_eq_some_iff.1 at_).1
    refine .inr ⟨(D m).size, pass, ?_, fair.size_next_le separate follows (Nat.le_of_lt within),
      fair.size_lt (Nat.le_of_lt within)⟩
    rw [follows.table, fair.table_label separate at_ within (Nat.le_refl _)]
  honest {n m pos id long} branch label ahead short := by
    have withinN := (List.getElem?_eq_some_iff.1 branch).1
    have withinM := (List.getElem?_eq_some_iff.1 label).1
    rw [fair.fits_ahead separate follows branch label ahead (fair.shrinks separate follows (Nat.le_of_lt withinN)),
      decide_eq_true_eq] at short
    have between := fair.shrinks separate follows (Nat.le_of_lt withinM) (n + 1) m ahead (Nat.le_refl m)
    omega

/-- Within its piece, a label does not move up. -/
theorem spot_le (at_ : ps[m]? = some p) {x y : Nat} (old : p.spot last (D m) id = some x)
    (new : p.spot (D ps.length).log (E m) id = some y) : y ≤ x := by
  have within := Nat.le_of_lt (List.getElem?_eq_some_iff.1 at_).1
  obtain ⟨head, rest⟩ := fair.parts_le separate follows at_ (fair.shrinks separate follows within)
  cases p with
  | fixed k | label k | branch pos k long =>
    cases old
    cases new
    exact Nat.le_refl 0
  | turn pos top body exit =>
    unfold Piece.spot at old new
    dsimp only at old new
    split at old
    · rename_i first
      rw [if_pos first] at new
      cases old
      cases new
      exact head
    · rename_i second
      rw [if_neg second] at new
      split at old <;> cases old
      split at new <;> cases new
      exact Nat.add_le_add head rest

/-- A label that is placed in two passes in a row does not move up. -/
theorem label_le {a b : Address} (old : (D ps.length).table id = some (a, pass))
    (new : (E ps.length).table id = some (b, pass + 1)) :
    ∃ x y, a = .inSpace .code (.ofNat x) ∧ b = .inSpace .code (.ofNat y) ∧ y ≤ x ∧ x < 0x10000 := by
  have placed : ∃ p ∈ ps, id ∈ p.placed := by
    by_contra none
    have none : ∀ p ∈ ps, id ∉ p.placed := fun p hp mem => none ⟨p, hp, mem⟩
    rw [fair.table_unplaced none (Nat.le_refl _)] at old
    exact Nat.lt_irrefl _ (fair.dated old)
  obtain ⟨p, hp, mem⟩ := placed
  obtain ⟨m, at_⟩ := List.mem_iff_getElem?.1 hp
  have within := (List.getElem?_eq_some_iff.1 at_).1
  rw [fair.table_end separate at_ mem] at old
  rw [follows.table_end separate at_ mem] at new
  obtain ⟨x, spot, old⟩ := Option.map_eq_some_iff.1 old
  obtain ⟨y, spot', new⟩ := Option.map_eq_some_iff.1 new
  have lower := fair.size_next_le separate follows (Nat.le_of_lt within)
  have inside := fair.spot_le separate follows at_ spot spot'
  refine ⟨_, _, (Prod.mk.inj old).1.symm, (Prod.mk.inj new).1.symm, by omega, ?_⟩
  have size := (fair.step at_).size
  have small := fair.size_lt (show m + 1 ≤ ps.length from within)
  have bound : x ≤ p.head last (D m) + p.rest (D m) := p.spot_le_size spot
  omega

end Step

/-- A first pass knows no label ahead. -/
theorem first (lays : Lays ps last pass D) (small : (D ps.length).size < 0x10000) (none : ∀ id, (D 0).table id = none)
    (separate : Separate ps) : Fair ps last pass D where
  toLays := lays
  small := small
  dated h := by
    rw [none] at h
    cases h
  blank _ := none _
  above _ := .inl (none _)
  honest {n m pos id long} _ label ahead short := by
    have unknown := lays.table_before separate label (Piece.mem_placed_label id) (Nat.le_of_lt ahead)
    rw [Draft.fits_of_none (unknown.trans (none id))] at short
    cases short

end Fair

/-- The layouts in front of the pieces of a pass. -/
theorem exists_lays {ps : List Piece} {last : Array ReachEntry} {pass : Nat} {d d' : Draft} (separate : Separate ps)
    (size : d.size = 0) (log : d.log = #[]) (h : ps.foldlM (Piece.lay last pass) d = some d') :
    ∃ D, D 0 = d ∧ D ps.length = d' ∧ Lays ps last pass D := by
  let D := fun j => ((ps.take j).foldlM (Piece.lay last pass) d).getD d
  have full : D ps.length = d' := by simp only [D, List.take_length, h, Option.getD_some]
  refine ⟨D, rfl, full, size, log, fun {j p} at_ => ?_⟩
  refine laid_of_lay ((List.nodup_flatMap.1 separate.once).1 p (List.mem_of_getElem? at_)) ?_
  -- the pass as three parts: what is before the piece, the piece, and what is after it
  obtain ⟨within, same⟩ := List.getElem?_eq_some_iff.1 at_
  have cut : ps.take (j + 1) = ps.take j ++ [p] := by rw [List.take_add_one, at_, Option.toList_some]
  rw [← List.take_append_drop (j + 1) ps, List.foldlM_append, cut, List.foldlM_append] at h
  obtain ⟨after, laid, -⟩ := Option.bind_eq_some_iff.1 h
  obtain ⟨before, upTo, one⟩ := Option.bind_eq_some_iff.1 laid
  have step : p.lay last pass before = some after := by simpa using one
  have here : D j = before := by simp only [D, upTo, Option.getD_some]
  have there : D (j + 1) = after := by
    simp only [D, cut, List.foldlM_append, laid, Option.getD_some]
  rw [here, there, step]

/-- The same pieces in pass after pass; `d k` is what pass `k` leaves. -/
structure Rounds (ps : List Piece) (d : Nat → Draft) (n : Nat) : Prop where
  separate : Separate ps
  start : ∀ id, (d 0).table id = none
  small : (d 1).size < 0x10000
  passes : ∀ k < n, ps.foldlM (Piece.lay (d k).log (k + 1)) ⟨0, (d k).table, #[]⟩ = some (d (k + 1))

namespace Rounds

variable {ps : List Piece} {d : Nat → Draft} {n : Nat}

theorem exists_fair (h : Rounds ps d n) {k : Nat} (within : k < n) :
    ∃ D, D ps.length = d (k + 1) ∧ Fair ps (d k).log (k + 1) D := by
  induction k with
  | zero =>
    obtain ⟨D, first, final, lays⟩ := exists_lays h.separate rfl rfl (h.passes 0 within)
    exact ⟨D, final, .first lays (final ▸ h.small) (fun id => first ▸ h.start id) h.separate⟩
  | succ k ih =>
    obtain ⟨D, final, fair⟩ := ih (Nat.lt_of_succ_lt within)
    obtain ⟨E, first, final', lays⟩ := exists_lays h.separate rfl rfl (h.passes (k + 1) within)
    rw [← final] at lays first ⊢
    exact ⟨E, final', fair.next h.separate ⟨lays, by rw [first]⟩⟩

theorem exists_follows (h : Rounds ps d (n + 2)) : ∃ D E, D ps.length = d (n + 1) ∧ E ps.length = d (n + 2)
    ∧ Fair ps (d n).log (n + 1) D ∧ Follows ps (n + 1) D E := by
  obtain ⟨D, final, fair⟩ := h.exists_fair (Nat.lt_succ_of_lt (Nat.lt_succ_self n))
  obtain ⟨E, first, final', lays⟩ := exists_lays h.separate rfl rfl (h.passes (n + 1) (Nat.lt_succ_self _))
  rw [← final] at lays first
  exact ⟨D, E, final, final', fair, lays, by rw [first]⟩

/-- The code as a whole does not get longer. -/
theorem size_le (h : Rounds ps d (n + 2)) : (d (n + 2)).size ≤ (d (n + 1)).size := by
  obtain ⟨D, E, final, final', fair, follows⟩ := h.exists_follows
  rw [← final, ← final']
  exact fair.size_next_le h.separate follows (Nat.le_refl _)

/-- No label moves up. -/
theorem label_le (h : Rounds ps d (n + 2)) {id : SymbolId} {a b : Address}
    (old : (d (n + 1)).table id = some (a, n + 1)) (new : (d (n + 2)).table id = some (b, n + 2)) :
    ∃ x y, a = .inSpace .code (.ofNat x) ∧ b = .inSpace .code (.ofNat y) ∧ y ≤ x ∧ x < 0x10000 := by
  obtain ⟨D, E, final, final', fair, follows⟩ := h.exists_follows
  rw [← final] at old
  rw [← final'] at new
  exact fair.label_le h.separate follows old new

end Rounds

end Asm65
