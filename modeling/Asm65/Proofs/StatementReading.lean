import Asm65.Proofs.StatementParts
import Asm65.Proofs.TokenMoves

/-!
# What a statement reads

A statement takes tokens, looks at them and puts them back, whether it succeeds or fails, and it loads no file. The one
statement that does more is an inclusion. So a statement goes along every relation between states that allows reading
on, if an inclusion does (`alongFresh_statement`). If it does not switch to another space, the relation may ask for
bytes to be added to the current segment only (`Working`).
-/

namespace Asm65
set_option autoImplicit false

/-- The space that a directive switches to. -/
def Keyword.space? : Keyword → Option Space
  | .codeSpace => some .code
  | .dataSpace => some .data
  | .zeroPageSpace => some .zeroPage
  | _ => none

namespace Assembler

variable {ρ : Assembler → Assembler → Prop} {s t u : Assembler} {token : Token} {α β : Type} {x : Asm α}
  {g : α → Asm β}

/-- From `s` to `t` the assembler has read on, in the files that it had. -/
structure Passes (s t : Assembler) : Prop where
  tokens : s.tokens.Onward t.tokens
  files : t.files = s.files
  disk : t.disk = s.disk

/-- The same, and bytes have been added to the current segment only. -/
structure Works (s t : Assembler) : Prop extends Passes s t, KeepsTo s t

/-- The token was read in `s`, and nothing has been read after it in `t`. -/
structure Took (token : Token) (s t : Assembler) : Prop where
  next : s.tokens.next = (.ok token, t.tokens)
  files : t.files = s.files
  disk : t.disk = s.disk
  idle : Idle s t

theorem Paused.passes (h : Paused s t) : Passes s t := ⟨h.tokens ▸ .refl, h.files, h.disk⟩

theorem Passes.still (tokens : t.tokens = s.tokens) (files : t.files = s.files) (disk : t.disk = s.disk) : Passes s t :=
  ⟨tokens ▸ .refl, files, disk⟩

theorem Paused.works (h : Paused s t) : Works s t := ⟨h.passes, h.keeps⟩

theorem Works.still (tokens : t.tokens = s.tokens) (files : t.files = s.files) (disk : t.disk = s.disk)
    (idle : Idle s t) : Works s t :=
  ⟨.still tokens files disk, idle.keepsTo⟩

theorem Passes.trans (h : Passes s t) (k : Passes t u) : Passes s u :=
  ⟨h.tokens.trans k.tokens, k.files.trans h.files, k.disk.trans h.disk⟩

theorem took_nextToken (run : Asm.nextToken s = .ok token t) : Took token s t := by
  obtain ⟨read, same⟩ := next_of_nextToken run
  rw [same]
  exact ⟨read, rfl, rfl, rfl, rfl, rfl⟩

theorem works_nextToken_error {e : Error} (run : Asm.nextToken s = .error e t) : Works s t := by
  obtain ⟨read, same⟩ := next_of_nextToken_error run
  rw [same]
  exact ⟨⟨.single (.take read), rfl, rfl⟩, Idle.keepsTo ⟨rfl, rfl, rfl⟩⟩

theorem passes_nextToken_error {e : Error} (run : Asm.nextToken s = .error e t) : Passes s t :=
  (works_nextToken_error run).toPasses

theorem Took.passes (h : Took token s t) : Passes s t := ⟨.single (.take h.next), h.files, h.disk⟩

theorem Took.putBack (h : Took token s t) : Passes s (Asm.putBack token t) := ⟨.single (.look h.next), h.files, h.disk⟩

theorem Took.works (h : Took token s t) : Works s t := ⟨h.passes, h.idle.keepsTo⟩

theorem Took.works_putBack (h : Took token s t) : Works s (Asm.putBack token t) :=
  ⟨h.putBack, Idle.keepsTo ⟨h.idle.listing, h.idle.current, h.idle.segments⟩⟩

/-- A relation that the work of a statement stays within. -/
class Working (ρ : Assembler → Assembler → Prop) : Prop where
  works {s t : Assembler} : Works s t → ρ s t
  trans {s t u : Assembler} : ρ s t → ρ t u → ρ s u

/-- A relation that reading on stays within. -/
class Forward (ρ : Assembler → Assembler → Prop) : Prop where
  passes {s t : Assembler} : Passes s t → ρ s t
  trans {s t u : Assembler} : ρ s t → ρ t u → ρ s u

instance [Forward ρ] : Working ρ := ⟨fun h => Forward.passes h.toPasses, Forward.trans⟩

instance : Forward Passes := ⟨id, .trans⟩

instance : Working KeepsTo := ⟨Works.toKeepsTo, .trans⟩

/-- Wherever `x` leaves off, it has gone along `ρ`. -/
def Along (ρ : Assembler → Assembler → Prop) (x : Asm α) : Prop := ∀ s, ρ s (leftBy (x s))

/-- The same from where the token was read, if `x` goes on from there. -/
def AlongAfter (ρ : Assembler → Assembler → Prop) (token : Token) (x : Asm α) : Prop :=
  ∀ s t, Took token s t → ρ s (leftBy (x t))

/-- The same from where no token has been put back. -/
def AlongFresh (ρ : Assembler → Assembler → Prop) (x : Asm α) : Prop :=
  ∀ s, s.tokens.ahead = none → ρ s (leftBy (x s))

/-! ### Rules -/

section Rules

/-- One part after another; the first may be the last. -/
theorem Along.andThen {σ τ : Assembler → Assembler → Prop} (still : ∀ {s t}, ρ s t → τ s t)
    (trans : ∀ {s t u}, ρ s t → σ t u → τ s u) (hx : Along ρ x) (hg : ∀ a, Along σ (g a)) : Along τ (x >>= g) := by
  intro s
  have first := hx s
  rw [leftBy_bind]
  cases run : x s with
  | ok a t =>
    rw [run] at first
    exact trans first (hg a t)
  | error e t =>
    rw [run] at first
    exact still first

variable [Working ρ]

namespace Along

theorem pause {Here : Position → Prop} (h : Pauses Here x) : Along ρ x := fun s => Working.works (h.paused s).works

theorem pure (a : α) : Along ρ (pure a) := fun _ => Working.works (.still rfl rfl rfl ⟨rfl, rfl, rfl⟩)

theorem throw (e : Error) : Along ρ (throw e : Asm α) := fun _ => Working.works (.still rfl rfl rfl ⟨rfl, rfl, rfl⟩)

theorem bind (hx : Along ρ x) (hg : ∀ a, Along ρ (g a)) : Along ρ (x >>= g) := hx.andThen id Working.trans hg

omit [Working ρ] in
/-- A computation that first looks at the state. -/
theorem get {g : Assembler → Asm β} (hg : ∀ s, Along ρ (g s)) : Along ρ (MonadState.get >>= g) := fun s => hg s s

theorem next {g : Token → Asm β} (hg : ∀ token, AlongAfter ρ token (g token)) : Along ρ (Asm.nextToken >>= g) := by
  intro s
  rw [leftBy_bind]
  cases run : Asm.nextToken s with
  | ok token t => exact hg token s t (took_nextToken run)
  | error e t => exact Working.works (works_nextToken_error run)

end Along

theorem Along.after (h : Along ρ x) (token : Token) : AlongAfter ρ token x := fun _ t took =>
  Working.trans (Working.works took.works) (h t)

theorem AlongAfter.unread {g : Unit → Asm β} (hg : Along ρ (g ())) : AlongAfter ρ token (Asm.unread token >>= g) :=
  fun _ t took => Working.trans (Working.works took.works_putBack) (hg (Asm.putBack token t))

omit [Working ρ] in
theorem Along.fresh (h : Along ρ x) : AlongFresh ρ x := fun s _ => h s

theorem AlongFresh.after (h : AlongFresh ρ x) (token : Token) : AlongAfter ρ token x := fun _ t took =>
  Working.trans (Working.works took.works) (h t (TokenStream.ahead_of_next took.next))

/-- What follows a token that is taken for good. -/
theorem Along.nextThen {g : Token → Asm β} (hg : ∀ token, Along ρ (g token)) : Along ρ (Asm.nextToken >>= g) :=
  .next fun token => (hg token).after token

end Rules

/-! ### Statements -/

section Reading

variable [Working ρ] (pos : Position)

/-- Going along a relation is kept by whatever is put together from parts that go along it. -/
theorem closed_along :
    ClosedWork (fun x => Along ρ x) (fun token x => AlongAfter ρ token x) (fun _ => True) where
  pure := .pure
  bind := .bind
  throw _ _ _ := .throw _
  next hg := .next fun token => hg token trivial
  after _ hx := hx.after _
  fail token _ _ _ := (Along.throw _).after token
  unread _ _ hg := .unread hg
  resolve name _ here := .pause (show Pauses (fun _ => True) _ from pauses_resolve here name)
  location := .get fun _ => .pure _
  locating {pos} _ {x} hx := by
    intro s
    have same : leftBy (Expression.locating pos x s) = leftBy (x s) := by
      unfold Expression.locating
      cases x s <;> rfl
    rw [same]
    exact hx s
  budget hg := .get fun _ => hg _
  get := .get
  pause := .pause

theorem along_endOfStatement : Along ρ Asm.endOfStatement := by
  refine .next fun token => ?_
  split
  · exact (Along.pure _).after token
  · exact .unread (.pure _)
  · exact (Along.throw _).after token

theorem along_thenEnd {work : Asm Unit} (h : Along ρ work) : Along ρ (Asm.thenEnd work) :=
  h.bind fun _ => along_endOfStatement

theorem along_skipEmptyLines (n : Nat) : Along ρ (Asm.skipEmptyLines n) := by
  induction n with
  | zero => exact .pure _
  | succ n ih =>
    rw [Asm.skipEmptyLines]
    refine .next fun token => ?_
    split
    · exact ih.after token
    · exact .unread fun _ => Working.works (.still rfl rfl rfl ⟨rfl, rfl, rfl⟩)

theorem along_peekToken : Along ρ Asm.peekToken := by
  intro s
  unfold Asm.peekToken TokenStream.peek
  cases read : s.tokens.next with
  | mk r tokens =>
    cases r with
    | ok token => exact Working.works ⟨⟨.single (.look read), rfl, rfl⟩, Idle.keepsTo ⟨rfl, rfl, rfl⟩⟩
    | error e => exact Working.works ⟨⟨.single (.take read), rfl, rfl⟩, Idle.keepsTo ⟨rfl, rfl, rfl⟩⟩

/-- The test of a loop goes along: it places labels, writes a branch and looks at the next token. -/
theorem along_whileTest : Along ρ (Asm.whileTest pos) := by
  have work := closed_along (ρ := ρ)
  have branch (c : Condition) (target : Address) : Along ρ (Asm.branchIf c target pos) :=
    work.pause (pauses_branchIf trivial c target)
  have place (id : SymbolId) : Along ρ (Asm.placeLabel id pos) := work.pause (pauses_placeLabel trivial id)
  have address (id : SymbolId) : Along ρ (Asm.labelAddress id) := work.pause (pauses_labelAddress id)
  refine work.condition.bind fun c => .get fun s => ?_
  split
  · rename_i beginId repeatId endId tested top
    dsimp only
    split
    · exact work.failThen trivial _ _
    · refine (work.pause (pauses_setTop _)).bind fun _ => along_endOfStatement.bind fun _ => work.withBudget fun n => ?_
      refine (along_skipEmptyLines n).bind fun _ => (address repeatId).bind fun top => ?_
      refine along_peekToken.bind fun token => .get fun u => ?_
      split
      · refine .nextThen fun _ => (branch c top).bind fun _ => (place beginId).bind fun _ => ?_
        exact .bind (work.update fun _ => .still rfl) fun _ => along_endOfStatement
      · refine (address endId).bind fun target => (branch _ target).bind fun _ => ?_
        exact (place beginId).bind fun _ => .pure _
  · exact .throw _

variable {pos} in
/-- An inclusion reads its line and opens a file. -/
theorem along_includeFile (opening : ∀ name, Along ρ (Asm.openInclude name pos)) : Along ρ (Asm.includeFile pos) := by
  refine .nextThen fun token => ?_
  split
  · refine .nextThen fun last => ?_
    dsimp only
    split
    · exact .throw _
    · exact (opening _).bind fun _ => .pure _
  · exact .throw _

variable (inclusion : ∀ pos, AlongFresh ρ (Asm.includeFile pos))

include inclusion

/-- Each directive goes along, if switching the space does. -/
theorem alongFresh_directive (k : Keyword)
    (switching : ∀ space, k.space? = some space → Along ρ (Asm.switchTo space)) :
    AlongFresh ρ (Asm.directive k pos) := by
  have work := closed_along (ρ := ρ)
  have ends {work : Asm Unit} (h : Along ρ work) : AlongFresh ρ (Asm.thenEnd work) := (along_thenEnd h).fresh
  cases k with
  | codeSpace | dataSpace | zeroPageSpace => exact ends (switching _ rfl)
  | bytes => exact ends work.defineBytes
  | words => exact ends work.defineWords
  | reserve => exact ends (work.reserve trivial)
  | declarePublic | declareExternal => exact ends (work.declare _)
  | includeFile => exact inclusion pos
  | endSource => exact (along_endOfStatement.bind fun _ => .pure _).fresh
  | ifBlock => exact ends (work.beginIf trivial)
  | elseIf => exact ends (work.elseIf trivial)
  | elsePart => exact ends (work.pause (pauses_elsePart trivial))
  | endIf => exact ends (work.pause (pauses_endIf trivial))
  | doBlock => exact ends (work.pause (pauses_beginDo trivial))
  | whileTest => exact (along_whileTest pos).fresh
  | loopEnd => exact ends (work.pause (pauses_endLoop trivial))
  | equate => exact (Along.throw _).fresh

end Reading

section Statement

variable [Forward ρ] (inclusion : ∀ pos, AlongFresh ρ (Asm.includeFile pos))

include inclusion

/-- A statement goes along, whatever follows its labels. -/
theorem alongFresh_statementWithin (n : Nat) (token : Token) : AlongFresh ρ (Asm.statementWithin n token) := by
  have work := closed_along (ρ := ρ)
  induction n generalizing token with
  | zero => exact (Along.throw _).fresh
  | succ n ih =>
    rw [Asm.statementWithin]
    split
    · refine alongFresh_directive token.pos inclusion _ fun space _ s => ?_
      exact Forward.passes (.still rfl rfl rfl)
    · refine Along.fresh (.next fun after => ?_)
      split
      · refine Along.after ((work.placeName trivial _).bind fun _ => .next fun token => ?_) after
        split
        · exact .unread along_endOfStatement
        · exact (ih token).after token
      · split
        · exact (along_thenEnd (work.equate trivial _)).after after
        · refine .unread (.get fun s => ?_)
          split
          · exact along_thenEnd (work.instruction trivial _)
          · exact .throw _
    · exact (Along.throw _).fresh

theorem alongFresh_statement (token : Token) : AlongFresh ρ (Asm.statement token) := fun s fresh =>
  alongFresh_statementWithin inclusion s.tokens.budget token s fresh

end Statement

end Assembler

end Asm65
