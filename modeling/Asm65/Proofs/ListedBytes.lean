import Asm65.Proofs.Result
import Asm65.Proofs.RunNames
import Asm65.Proofs.StatementReading

/-!
# Bytes in the listing

A statement adds bytes to the segment that is current when it starts and to no other, and a switch to another space adds
none. So the row of a statement shows all that it has added. After a pass without errors the rows of a space show its
segment from the first byte to the last, each from where the rows before it end.
-/

namespace Asm65
set_option autoImplicit false

namespace Listing

variable {rows rows' : List Row} {row : Row} {space : Space}

/-- The bytes that rows show of a space, in their order. -/
def bytesIn (space : Space) (rows : List Row) : List UInt8 :=
  (rows.filter (·.space = space)).flatMap (·.bytes.toList)

/-- A row starts where the rows of its space before it end. -/
def Follows (row : Row) (before : List Row) : Prop := row.address = UInt16.ofNat (bytesIn row.space before).length

def Contiguous (rows : List Row) : Prop := ∀ before row after, rows = before ++ row :: after → Follows row before

theorem bytesIn_append : bytesIn space (rows ++ rows') = bytesIn space rows ++ bytesIn space rows' := by
  simp [bytesIn]

theorem bytesIn_singleton : bytesIn space [row] = if row.space = space then row.bytes.toList else [] := by
  by_cases same : row.space = space <;> simp [bytesIn, same]

theorem contiguous_nil : Contiguous [] := by
  intro before row after none
  cases List.append_ne_nil_of_right_ne_nil before (List.cons_ne_nil row after) none.symm

theorem Contiguous.concat (h : Contiguous rows) (follows : Follows row rows) : Contiguous (rows ++ [row]) := by
  intro before row' after same
  obtain rfl | ⟨after, last, rfl⟩ := after.eq_nil_or_concat
  · have front : rows = before := List.append_inj_left' same rfl
    have last : [row] = [row'] := List.append_inj_right' same rfl
    cases front
    cases last
    exact follows
  · rw [List.concat_eq_append, ← List.cons_append, ← List.append_assoc] at same
    exact h before row' after (List.append_inj_left' same rfl)

end Listing

namespace Assembler

variable {s t u : Assembler} {α β : Type} {x : Asm α} {g : α → Asm β}

/-! ### Statements -/

/-- From `s` to `t` bytes have been added to the current segment, or the space has been switched, but not both. -/
structure Settles (s t : Assembler) : Prop where
  listing : t.listing = s.listing
  segments : KeepsTo s t ∨ t.segments = s.segments

theorem KeepsTo.settles (h : KeepsTo s t) : Settles s t := ⟨h.listing, .inl h⟩

theorem Idle.settles (h : Idle s t) : Settles s t := h.keepsTo.settles

theorem Idle.trans (h : Idle s t) (k : Idle t u) : Idle s u :=
  ⟨k.listing.trans h.listing, k.current.trans h.current, k.segments.trans h.segments⟩

theorem Settles.afterIdle (h : Idle s t) (k : Settles t u) : Settles s u :=
  ⟨k.listing.trans h.listing, k.segments.imp h.keepsTo.trans fun same => same.trans h.segments⟩

theorem Along.settles (h : Along KeepsTo x) : Along Settles x := fun s => (h s).settles

/-- What adds nothing may come first. -/
theorem Along.thenSettles (hx : Along Idle x) (hg : ∀ a, Along Settles (g a)) : Along Settles (x >>= g) :=
  hx.andThen Idle.settles .afterIdle hg

theorem idle_nextToken : Along Idle Asm.nextToken := by
  intro s
  cases read : Asm.nextToken s with
  | ok token t => exact (took_nextToken read).idle
  | error e t =>
    obtain ⟨-, same⟩ := next_of_nextToken_error read
    rw [leftBy, same]
    exact ⟨rfl, rfl, rfl⟩

theorem idle_endOfStatement : Along Idle Asm.endOfStatement := by
  refine idle_nextToken.andThen id .trans fun token => ?_
  split <;> exact fun _ => ⟨rfl, rfl, rfl⟩

theorem idle_placeName (name : String) (pos : Position) : Along Idle (Asm.placeName name pos) := by
  have named (a : Address) : Along Idle (Asm.defineName name a pos) := by
    refine Along.andThen id .trans (fun s => ?_) fun id s => ?_
    · unfold Asm.intern
      split <;> exact ⟨rfl, rfl, rfl⟩
    · obtain ⟨-, run⟩ | ⟨-, run⟩ := defineId_eq id name a pos s <;> rw [run] <;> exact ⟨rfl, rfl, rfl⟩
  exact fun s => Along.andThen id .trans (named s.here) (fun _ _ => ⟨rfl, rfl, rfl⟩) s

theorem settles_next {g : Token → Asm β} (hg : ∀ token, AlongFresh Settles (g token)) :
    Along Settles (Asm.nextToken >>= g) := by
  intro s
  rw [leftBy_bind]
  cases read : Asm.nextToken s with
  | ok token t =>
    have took := took_nextToken read
    exact .afterIdle took.idle (hg token t (TokenStream.ahead_of_next took.next))
  | error e t => exact (works_nextToken_error read).toKeepsTo.settles

theorem keepsTo_openInclude (name : String) (pos : Position) : Along KeepsTo (Asm.openInclude name pos) := by
  intro s
  unfold Asm.openInclude
  cases loaded : s.load (s.files.resolveInclude pos.file name) with
  | error cause => exact Idle.keepsTo ⟨rfl, rfl, rfl⟩
  | ok found =>
    obtain ⟨id, t⟩ := found
    rw [load_eq loaded]
    dsimp only
    cases s.tokens.pushFile t.files id pos <;> exact Idle.keepsTo ⟨rfl, rfl, rfl⟩

theorem directive_of_space {k : Keyword} {space : Space} (h : k.space? = some space) (pos : Position) :
    Asm.directive k pos = Asm.thenEnd (Asm.switchTo space) := by
  cases k <;> cases h <;> rfl

theorem settles_directive (k : Keyword) (pos : Position) : AlongFresh Settles (Asm.directive k pos) := by
  intro s fresh
  cases which : k.space? with
  | none =>
    have along : AlongFresh KeepsTo (Asm.directive k pos) := by
      have inclusion (pos : Position) : Along KeepsTo (Asm.includeFile pos) :=
        along_includeFile fun name => keepsTo_openInclude name pos
      refine alongFresh_directive pos (fun pos => (inclusion pos).fresh) k fun space switch => ?_
      cases which.symm.trans switch
    exact (along s fresh).settles
  | some space =>
    rw [directive_of_space which]
    have ended := idle_endOfStatement { s with current := space }
    exact ⟨ended.listing, .inr ended.segments⟩

/-- A statement adds bytes to the current segment or switches the space, never both. -/
theorem settles_statementWithin (n : Nat) (token : Token) : AlongFresh Settles (Asm.statementWithin n token) := by
  have work := closed_along (ρ := KeepsTo)
  have failed {γ : Type} (e : Error) : Along Settles (throw e : Asm γ) := (Along.throw e).settles
  have first {γ : Type} {g : Unit → Asm γ} (token : Token) (hg : Along Settles (g ())) :
      Along Settles (Asm.unread token >>= g) :=
    Along.thenSettles (fun _ => ⟨rfl, rfl, rfl⟩) fun _ => hg
  induction n generalizing token with
  | zero => exact (failed _).fresh
  | succ n ih =>
    rw [Asm.statementWithin]
    split
    · exact settles_directive _ token.pos
    · refine (settles_next fun after => ?_).fresh
      split
      · refine ((idle_placeName _ _).thenSettles fun _ => ?_).fresh
        refine settles_next fun token => ?_
        split
        · exact (first token along_endOfStatement.settles).fresh
        · exact ih token
      · split
        · exact (along_thenEnd (work.equate trivial _)).settles.fresh
        · refine (first after ?_).fresh
          refine .get fun s => ?_
          split
          · exact (along_thenEnd (work.instruction trivial _)).settles
          · exact failed _
    · exact (failed _).fresh

/-! ### Rows -/

/-- The rows so far show the segments so far. -/
structure Shown (s : Assembler) : Prop where
  bytes (space : Space) : Listing.bytesIn space s.listing.rows.toList = (s.segment space).bytes.toList
  contiguous : Listing.Contiguous s.listing.rows.toList

theorem Settles.others (h : Settles s t) {space : Space} (other : space ≠ s.current) :
    t.segment space = s.segment space := by
  obtain keeps | still := h.segments
  · exact keeps.others other
  · rw [segment, still]
    rfl

/-- The row of a statement shows what it has added to the segment that was current. -/
theorem Settles.shown (h : Settles s t) {bs : Array UInt8}
    (all : (t.segment s.current).bytes = (s.segment s.current).bytes ++ bs) :
    (if t.current = s.current then (t.segment s.current).bytes.extract (s.segment s.current).size else #[]) = bs := by
  obtain keeps | still := h.segments
  · rw [if_pos keeps.current, all]
    simp [Segment.size]
  · have none : bs = #[] := by
      rw [segment, still] at all
      exact Array.self_eq_append_right.1 all
    rw [all, none]
    split <;> simp [Segment.size]

namespace Shown

theorem idle (h : s.Shown) (idle : Idle s t) : t.Shown := by
  constructor
  · intro space
    rw [idle.listing, segment, idle.segments]
    exact h.bytes space
  · rw [idle.listing]
    exact h.contiguous

/-- The row of a statement shows what the statement has added. -/
theorem listStatement (h : s.Shown) (settles : Settles s t)
    (added : ∀ space, ∃ bs, (t.segment space).bytes = (s.segment space).bytes ++ bs) (pos : Position) :
    (t.listStatement pos s.current (s.segment s.current).size).Shown := by
  have rows (row : Listing.Row) : (t.listing.push row).rows.toList = s.listing.rows.toList ++ [row] := by
    rw [settles.listing, Listing.push, Array.toList_push]
  constructor
  · intro space
    rw [Assembler.listStatement]
    show Listing.bytesIn space (t.listing.push _).rows.toList = (t.segment space).bytes.toList
    rw [rows, Listing.bytesIn_append, Listing.bytesIn_singleton, h.bytes]
    dsimp only
    by_cases here : s.current = space
    · obtain ⟨bs, all⟩ := added space
      rw [← here] at all ⊢
      rw [if_pos rfl, settles.shown all, all, Array.toList_append]
    · rw [if_neg here, List.append_nil, settles.others (Ne.symm here)]
  · rw [Assembler.listStatement]
    dsimp only
    rw [rows]
    refine h.contiguous.concat ?_
    rw [Listing.Follows, h.bytes]
    rfl

/-- With a line that leaves no error the rows still show the segments. -/
theorem line {flow : Flow} (h : s.Shown) (line : Line s flow t) (grows : Grows s t) : t.Shown := by
  cases line with
  | ends read => exact h.idle (took_nextToken read).idle
  | @statement token u v flow read line run =>
    have took := took_nextToken read
    have settles : Settles { u with start := u.here } v := by
      have fresh := TokenStream.ahead_of_next took.next
      have settles := settles_statementWithin u.tokens.budget token { u with start := u.here } fresh
      rw [show Asm.statementWithin u.tokens.budget token { u with start := u.here } = .ok flow v from run] at settles
      exact settles
    have begun : Assembler.Shown { u with start := u.here } :=
      h.idle ⟨took.idle.listing, took.idle.current, took.idle.segments⟩
    refine begun.listStatement settles (fun space => ?_) token.pos
    have added := grows.bytes space
    rw [show s.segment space = u.segment space by rw [segment, ← took.idle.segments]; rfl] at added
    exact added

theorem statements (n : Nat) (h : s.Shown) (sound : s.Sound) (tidy : s.Tidy)
    (clean : (statements n s).diagnostics.isEmpty = true) : (statements n s).Shown := by
  induction n generalizing s with
  | zero => exact h
  | succ n ih =>
    obtain ⟨flow, t, line, reaches, same⟩ := of_statements sound tidy clean
    have shown := h.line line reaches.steps.grows
    rw [same] at clean ⊢
    cases flow with
    | goOn => exact ih shown (sound.steps reaches.steps) reaches.tidy clean
    | stop => exact shown

theorem begun (s : Assembler) (root : Nat) : (s.begun root).Shown :=
  ⟨fun space => by cases space <;> rfl, Listing.contiguous_nil⟩

theorem onePass (sound : s.Sound) {root : Nat} (clean : (s.onePass root).diagnostics.isEmpty = true) :
    (s.onePass root).Shown := by
  have begin := sound.begun root
  obtain ⟨-, same⟩ := endPass_eq_self (begin.steps (reaches_laidOut sound root).steps) clean
  rw [onePass_eq, same] at clean ⊢
  exact (begun s root).statements _ begin (tidy_begun s root) clean

end Shown

/-- The rows of a run that succeeds show every byte of every segment once, and each row shows where its bytes are. -/
theorem listing_shows_segments {root : Nat} {asm : Assembly} (new : s.IsNew) (run : s.run root = (.ok asm, t)) :
    (∀ space, Listing.bytesIn space asm.listing.rows.toList = (asm.object.segment space).bytes.toList)
      ∧ ∀ before row after, asm.listing.rows.toList = before ++ row :: after →
          row.address.toNat = (Listing.bytesIn row.space before).length % 0x10000 := by
  obtain ⟨n, last, concludes⟩ := exists_passes new run
  have shown := Shown.onePass (new.prepared.1.afterPasses root n) last.clean
  rw [concludes.rows, concludes.object]
  refine ⟨shown.bytes, fun before row after same => ?_⟩
  have follows := congrArg UInt16.toNat (shown.contiguous before row after same)
  exact follows.trans UInt16.toNat_ofNat'

/-- Two labels on a line, a loop whose test and end share a row, switches of the space, and a line after the end. -/
def switching : Assembler :=
  ofText "a: b: nop\n do\n while ne\n wend\n zpage\n ds 1\n data\n db 7\n code\n nop\n end\n nop\n"

theorem listing_shows_switched_segments :
    ∃ asm t, switching.run 0 = (.ok asm, t)
      ∧ Listing.bytesIn .code asm.listing.rows.toList = [0xEA, 0xD0, 0xFE, 0xEA]
      ∧ ∀ space, Listing.bytesIn space asm.listing.rows.toList = (asm.object.segment space).bytes.toList := by
  obtain ⟨asm, t, run, checked⟩ := exists_run switching 0
    (fun asm _ => decide (Listing.bytesIn .code asm.listing.rows.toList = [0xEA, 0xD0, 0xFE, 0xEA])) (by decide +kernel)
  have new : switching.IsNew := isNew_ofText _
  exact ⟨asm, t, run, of_decide_eq_true checked, (listing_shows_segments new run).1⟩

end Assembler

end Asm65
