import Asm65.Proofs.SourceLines
import Asm65.Proofs.StatementParts

/-!
# What a statement leaves of its line

A statement is read on its line. Where it fails, the error is reported on the line, which is then still being read, or
its end has been read and the state says so. Where it succeeds, its line has been left (`runs_statement`).

Two statements leave their line on purpose. An inclusion goes on with the file. The test of a loop looks for the end of
the loop behind empty lines; if it meets an error there, the error is on another line than the one that has ended.
-/

namespace Asm65
set_option autoImplicit false

open Assembler

/-! ### Parts of the test of a loop -/

namespace Asm

/-- One branch back does for the test and the end of the loop. -/
def testBack (beginId endId : SymbolId) (top : Address) (c : Condition) (pos : Position) : Asm Flow := do
  branchIf c top pos
  placeLabel beginId pos
  dropEnd endId
  endOfStatement

/-- A branch out of the loop. -/
def testOut (beginId endId : SymbolId) (c : Condition) (pos : Position) : Asm Flow := do
  branchIf c.invert (← labelAddress endId) pos
  placeLabel beginId pos
  return .goOn

/-- The test where the token that follows it has been found. -/
def testBefore (beginId repeatId endId : SymbolId) (c : Condition) (pos : Position) : Asm Flow := do
  let top ← labelAddress repeatId
  if (← peekToken).isKeyword .loopEnd && (← get).reachesBack top 2 then
    let _ ← nextToken
    testBack beginId endId top c pos
  else testOut beginId endId c pos

end Asm

namespace SourceLine

variable {l m : SourceLine} {s t : Assembler} {e : Error} {token : Token} {pos : Position} {α β : Type}
  {Q : Assembler → Prop} {R : EStateM.Result Error Assembler β → Prop} {x : Asm α}

/-! ### On a line and behind it -/

/-- The line is being read. -/
structure On (l : SourceLine) (s : Assembler) : Prop where
  lineEnded : s.lineEnded = false
  holds : l.Holds s.tokens

/-- The line has been left, and the state says so. -/
structure Past (l : SourceLine) (s : Assembler) : Prop where
  lineEnded : s.lineEnded = true
  precedes : l.Precedes s.tokens

theorem On.paused (h : l.On s) (paused : Paused s t) : l.On t :=
  ⟨paused.lineEnded.trans h.lineEnded, paused.tokens ▸ h.holds⟩

theorem Past.paused (h : l.Past s) (paused : Paused s t) : l.Past t :=
  ⟨paused.lineEnded.trans h.lineEnded, paused.tokens ▸ h.precedes⟩

/-- An error on the line, and the state that it leaves. -/
structure Fails (l : SourceLine) (e : Error) (t : Assembler) : Prop where
  blames : Blames l.At e
  left : l.On t ∨ l.Past t

/-- How a computation on the line ends. -/
inductive Outcome (l : SourceLine) (Q : Assembler → Prop) : EStateM.Result Error Assembler α → Prop where
  | ok {a : α} {t : Assembler} (h : Q t) : Outcome l Q (.ok a t)
  | error {e : Error} {t : Assembler} (h : l.Fails e t) : Outcome l Q (.error e t)

/-- Started on the line, `x` ends as `R` says. -/
def Runs (l : SourceLine) (R : EStateM.Result Error Assembler β → Prop) (x : Asm β) : Prop := ∀ s, l.On s → R (x s)

/-- The same from where the token has been read on the line. -/
def RunsAfter (l : SourceLine) (token : Token) (R : EStateM.Result Error Assembler β → Prop) (x : Asm β) : Prop :=
  ∀ s, l.Took token s.tokens → s.lineEnded = (token.lexeme == .endOfLine) → R (x s)

/-- A computation that stays on the line. -/
abbrev Stays (l : SourceLine) (x : Asm α) : Prop := l.Runs (l.Outcome l.On) x

/-! ### Rules -/

theorem Took.fails (took : l.Took token s.tokens) (lineEnded : s.lineEnded = (token.lexeme == .endOfLine))
    (blames : Blames l.At e) : l.Fails e s := by
  refine ⟨blames, ?_⟩
  by_cases feed : token.lexeme = .endOfLine
  · have behind := took.ended (Token.endsStatement_iff.2 (.inl feed))
    exact .inr ⟨by rw [lineEnded, feed]; rfl, _, .refl, .inl behind⟩
  · exact .inl ⟨by rw [lineEnded, beq_eq_false_iff_ne.2 feed], took.holds feed⟩

/-- After a token inside the line. -/
theorem RunsAfter.inside {x : Asm β} (inside : token.endsStatement = false) (hx : l.Runs R x) :
    l.RunsAfter token R x := by
  intro s took lineEnded
  have more := Token.ne_endOfLine inside
  exact hx s ⟨by rw [lineEnded, beq_eq_false_iff_ne.2 more], took.holds more⟩

theorem RunsAfter.unread {g : Unit → Asm β} (hg : l.Runs R (g ())) : l.RunsAfter token R (Asm.unread token >>= g) := by
  intro s took lineEnded
  refine hg (Asm.putBack token s) ⟨?_, took.unread⟩
  show (s.lineEnded && !token.endsStatement) = false
  rw [lineEnded]
  cases lexeme : token.lexeme <;> simp [Token.endsStatement, lexeme]
  all_goals rfl

/-- A computation that first looks at the state. -/
theorem Runs.get {g : Assembler → Asm β} (hg : ∀ s, l.Runs R (g s)) : l.Runs R (MonadState.get >>= g) :=
  fun s on => hg s s on

section Rules

variable (fails : ∀ {e t}, l.Fails e t → R (.error e t))

include fails

theorem Runs.bind {g : α → Asm β} (hx : l.Runs (l.Outcome Q) x) (hg : ∀ a t, Q t → R (g a t)) : l.Runs R (x >>= g) := by
  intro s on
  show R (EStateM.bind x g s)
  unfold EStateM.bind
  have first := hx s on
  cases run : x s with
  | ok a t =>
    rw [run] at first
    cases first with
    | ok h => exact hg a t h
  | error e t =>
    rw [run] at first
    cases first with
    | error h => exact fails h

theorem Runs.next {g : Token → Asm β} (hg : ∀ token, l.At token.pos → l.RunsAfter token R (g token)) :
    l.Runs R (Asm.nextToken >>= g) := by
  intro s on
  show R (EStateM.bind Asm.nextToken g s)
  unfold EStateM.bind
  cases run : Asm.nextToken s with
  | ok token t =>
    obtain ⟨read, same⟩ := next_of_nextToken run
    have took := on.holds.next read
    exact hg token took.place t took (by rw [same])
  | error e t =>
    obtain ⟨read, same⟩ := next_of_nextToken_error run
    obtain ⟨line, cause, pos, rfl, here⟩ := on.holds.next_error read
    have held : l.Holds t.tokens := .on (TokenStream.ahead_of_next read) line (on.holds.fits.next read)
    exact fails ⟨blames_at here cause, .inl ⟨by rw [same]; exact on.lineEnded, held⟩⟩

theorem Runs.fail (here : l.At pos) (cause : Cause) : l.Runs R (Asm.fail cause pos) :=
  fun _ on => fails ⟨blames_at here cause, .inl on⟩

theorem RunsAfter.fail (here : l.At pos) (cause : Cause) : l.RunsAfter token R (Asm.fail cause pos) :=
  fun _ took lineEnded => fails (took.fails lineEnded (blames_at here cause))

end Rules

theorem stays_of_pauses (h : Pauses l.At x) : l.Stays x := by
  intro s on
  have paused := h.paused s
  cases run : x s with
  | ok a t =>
    rw [run] at paused
    exact .ok (on.paused paused)
  | error e t =>
    rw [run] at paused
    exact .error ⟨h.blames run, .inl (on.paused paused)⟩

theorem Fails.located {z : Assembler} (h : l.Fails e z) (here : l.At pos) : l.Fails (e.located pos) z := by
  obtain ⟨cause, place⟩ := e
  cases place with
  | none => exact ⟨blames_at here cause, h.left⟩
  | some place => exact h

/-- Computations that stay on the line may be put together from their parts. -/
theorem closed_stays :
    ClosedWork (fun x => l.Stays x) (fun token x => l.RunsAfter token (l.Outcome l.On) x) l.At where
  pure _ _ on := .ok on
  bind hx hg := .bind .error hx hg
  throw cause _ here := .fail .error here cause
  next hg := .next .error hg
  after inside hx := .inside inside hx
  fail _ cause _ here := .fail .error here cause
  unread _ _ hg := .unread hg
  resolve name _ here := stays_of_pauses (pauses_resolve here name)
  location _ on := .ok on
  locating {pos} here {x} hx := by
    intro s on
    have first := hx s on
    unfold Expression.locating
    cases run : x s with
    | ok a t =>
      rw [run] at first
      exact first
    | error e t =>
      rw [run] at first
      cases first with
      | error h => exact .error (h.located here)
  budget hg s on := hg _ s on
  get hg s on := hg s s on
  pause := stays_of_pauses

/-! ### The end of a statement -/

/-- The line has been left; if no token was put back, the state says so. -/
def Ended (l : SourceLine) (s : Assembler) : Prop :=
  ∃ k, l.behind.Empties k ∧ k.Fits ∧ k.Resumes s.tokens ∧ (s.tokens.ahead = none → s.lineEnded = true)

theorem Ended.precedes (h : l.Ended s) : l.Precedes s.tokens := by
  obtain ⟨k, empties, -, resumes, -⟩ := h
  exact ⟨k, empties, resumes⟩

theorem runs_endOfStatement : l.Runs (l.Outcome l.Ended) Asm.endOfStatement := by
  refine .next .error fun token here => ?_
  split
  · rename_i feed
    intro s took lineEnded
    have behind := took.ended (Token.endsStatement_iff.2 (.inl feed))
    exact .ok ⟨l.behind, .refl, behind ▸ took.fits, .inl behind, fun _ => by rw [lineEnded, feed]; rfl⟩
  · rename_i last
    intro s took lineEnded
    have behind := took.ended (Token.endsStatement_iff.2 (.inr last))
    refine .ok ⟨l.behind, .refl, behind ▸ took.fits, ?_, fun none => by cases none⟩
    show l.behind.Resumes (s.tokens.unread token)
    rw [behind]
    exact TokenStream.resumes_of_last (took.last last) last
  · exact .fail .error here _

theorem runs_thenEnd {work : Asm Unit} (h : l.Stays work) : l.Runs (l.Outcome l.Ended) (Asm.thenEnd work) :=
  .bind .error h fun _ => runs_endOfStatement

/-! ### Looking ahead -/

/-- Behind the line, and behind empty lines, a token has been read and put back. -/
structure Found (l : SourceLine) (k : TokenStream) (token : Token) (u : TokenStream) (s : Assembler) : Prop where
  empties : l.behind.Empties k
  fits : k.Fits
  read : k.next = (.ok token, u)
  more : token.lexeme ≠ .endOfLine
  tokens : s.tokens = u.unread token
  lineEnded : s.lineEnded = true

/-- Behind the line, and behind empty lines, an error has been met. -/
structure Strays (l : SourceLine) (e : Error) (t : Assembler) : Prop where
  read : ∃ k, l.behind.Empties k ∧ k.next = (.error e, t.tokens)
  lineEnded : t.lineEnded = true

/-- How the search for the next token ends. -/
inductive Sought (l : SourceLine) : EStateM.Result Error Assembler Unit → Prop where
  | found {k u : TokenStream} {token : Token} {t : Assembler} (h : l.Found k token u t) : Sought l (.ok () t)
  | strayed {e : Error} {t : Assembler} (h : l.Strays e t) : Sought l (.error e t)

/-- The search behind a line ends with a token that is put back, or with an error there. -/
theorem sought_skipEmptyLines (n : Nat) (h : l.Ended s) (enough : s.tokens.weigh (fun _ => 1) < n) :
    l.Sought (Asm.skipEmptyLines n s) := by
  induction n generalizing s with
  | zero => exact absurd enough (Nat.not_lt_zero _)
  | succ n ih =>
    obtain ⟨k, empties, fits, resumes, ended⟩ := h
    have same := resumes.next
    show l.Sought (EStateM.bind Asm.nextToken _ s)
    unfold EStateM.bind
    cases run : Asm.nextToken s with
    | error e t =>
      obtain ⟨read, left⟩ := next_of_nextToken_error run
      have fresh : s.tokens.ahead = none := by
        cases put : s.tokens.ahead with
        | none => rfl
        | some token =>
          rw [TokenStream.next, put] at read
          cases read
      refine .strayed ⟨⟨k, empties, same ▸ read⟩, ?_⟩
      rw [left]
      exact ended fresh
    | ok token t =>
      obtain ⟨read, left⟩ := next_of_nextToken run
      have lighter := TokenStream.weigh_next (w := fun _ => 1) (fun _ => Nat.le_refl 1) read
      rw [same] at read
      dsimp only
      split
      · rename_i feed
        obtain ⟨lexeme, pos⟩ := token
        cases feed
        refine ih ⟨t.tokens, empties.tail ⟨pos, read⟩, fits.next read, .refl _, fun _ => by rw [left]; rfl⟩ ?_
        exact Nat.lt_of_lt_of_le lighter (Nat.le_of_lt_succ enough)
      · rename_i more
        exact .found ⟨empties, fits, read, more, rfl, rfl⟩

/-- The line itself, or one behind it with only empty lines between. -/
def LeadsTo (l m : SourceLine) : Prop := m = l ∨ ∃ k, l.behind.Empties k ∧ m = k.line

/-- How the test of a loop ends. A duplicate label is reported at the test, also where the end of the loop has been
read. -/
inductive Tested (l : SourceLine) : EStateM.Result Error Assembler Flow → Prop where
  | ended {m : SourceLine} {flow : Flow} {t : Assembler} (leads : l.LeadsTo m) (precedes : m.Precedes t.tokens) :
      Tested l (.ok flow t)
  | failed {m : SourceLine} {e : Error} {t : Assembler} (leads : l.LeadsTo m)
      (blames : e.category ≠ .duplicate → Blames m.At e) (left : m.On t ∨ m.Past t) : Tested l (.error e t)
  | strayed {e : Error} {t : Assembler} (h : l.Strays e t) : Tested l (.error e t)

theorem Fails.tested (h : m.Fails e t) (leads : l.LeadsTo m) : l.Tested (.error e t) :=
  .failed leads (fun _ => h.blames) h.left

/-- A branch back within reach is no error. -/
theorem exists_branchIf {top : Address} (c : Condition) (pos : Position) (back : s.reachesBack top 2 = true) :
    ∃ t, Asm.branchIf c top pos s = .ok () t := by
  have decided : ∃ r t, Asm.reach pos top 2 5 s = .ok r t := by
    simp only [reachesBack, Bool.and_eq_true, beq_iff_eq] at back
    obtain ⟨⟨⟨origin, part⟩, -⟩, -⟩ := back
    have near : (top.origin != s.here.origin || top.part != .word) = false := by simp [origin, part]
    unfold Asm.reach Assembler.estimate
    rw [near]
    dsimp only
    split
    · exact ⟨_, _, rfl⟩
    · rename_i failed
      split at failed
      · cases failed
      · split at failed
        · contradiction
        · split at failed <;> cases failed
  obtain ⟨r, t, run⟩ := decided
  show ∃ t, EStateM.bind (Asm.reach pos top 2 5) _ s = .ok () t
  unfold EStateM.bind
  rw [run]
  dsimp only
  cases r <;> exact ⟨_, rfl⟩

theorem category_of_placeLabel {id : SymbolId} (run : Asm.placeLabel id pos s = .error e t) :
    e.category = .duplicate := by
  obtain ⟨-, ran⟩ | ⟨-, ran⟩ := defineId_eq id "" s.here pos s
  · cases ran.symm.trans run
    rfl
  · cases ran.symm.trans run

/-- The end of the loop has been read on its line. -/
theorem tested_testBack {top : Address} (leads : l.LeadsTo m) (on : m.On s) (back : s.reachesBack top 2 = true)
    (beginId endId : SymbolId) (c : Condition) (pos : Position) :
    l.Tested (Asm.testBack beginId endId top c pos s) := by
  obtain ⟨t, branched⟩ := exists_branchIf c pos back
  have branch : Pauses (fun _ => True) (Asm.branchIf c top pos) := pauses_branchIf trivial c top
  have place : Pauses (fun _ => True) (Asm.placeLabel beginId pos) := pauses_placeLabel trivial beginId
  have paused := branch.paused s
  rw [branched] at paused
  have on := on.paused paused
  show l.Tested (EStateM.bind (Asm.branchIf c top pos) _ s)
  unfold EStateM.bind
  rw [branched]
  show l.Tested (EStateM.bind (Asm.placeLabel beginId pos) _ t)
  unfold EStateM.bind
  have paused := place.paused t
  cases placed : Asm.placeLabel beginId pos t with
  | error e u =>
    rw [placed] at paused
    exact .failed leads (fun other => absurd (category_of_placeLabel placed) other) (.inl (on.paused paused))
  | ok _ u =>
    rw [placed] at paused
    have drop : m.Stays (Asm.dropEnd endId) := closed_stays.update fun _ => .still rfl
    have rest : m.Runs l.Tested (Asm.dropEnd endId >>= fun _ => Asm.endOfStatement) := by
      refine .bind (fun h => h.tested leads) drop fun _ v on => ?_
      have ends := runs_endOfStatement v on
      generalize Asm.endOfStatement v = r at ends
      cases ends with
      | ok h => exact .ended leads h.precedes
      | error h => exact h.tested leads
    exact rest u (on.paused paused)

theorem tested_testOut (here : l.At pos) (past : l.Past s) (beginId endId : SymbolId) (c : Condition) :
    l.Tested (Asm.testOut beginId endId c pos s) := by
  have body : Pauses l.At (Asm.testOut beginId endId c pos) := by
    refine .bind (pauses_labelAddress endId) fun target => .bind (pauses_branchIf here _ target) fun _ => ?_
    exact .bind (pauses_placeLabel here beginId) fun _ => .pure _
  have paused := body.paused s
  cases run : Asm.testOut beginId endId c pos s with
  | ok flow t =>
    rw [run] at paused
    exact .ended (.inl rfl) (past.paused paused).precedes
  | error e t =>
    rw [run] at paused
    exact .failed (.inl rfl) (fun _ => body.blames run) (.inr (past.paused paused))

theorem Found.past {k u : TokenStream} (h : l.Found k token u s) : l.Past s :=
  ⟨h.lineEnded, k, h.empties, .inr ⟨token, u, h.read, h.more, h.tokens⟩⟩

/-- The token is read on the first line that is not empty. -/
theorem Found.on {k u : TokenStream} (h : l.Found k token u s) :
    k.line.On { s with tokens := u, lineEnded := token.lexeme == .endOfLine } := by
  have fresh := h.empties.fresh l.fresh
  have took := (Holds.on fresh rfl h.fits).next h.read
  exact ⟨beq_eq_false_iff_ne.2 h.more, took.holds h.more⟩

theorem Found.peekToken {k u : TokenStream} (h : l.Found k token u s) : Asm.peekToken s = .ok token s := by
  have read : s.tokens.next = (.ok token, u) := by
    rw [h.tokens, TokenStream.next_unread_of_next h.read]
  unfold Asm.peekToken TokenStream.peek
  rw [read]
  dsimp only
  rw [← h.tokens]

theorem tested_testBefore {k u : TokenStream} (h : l.Found k token u s) (here : l.At pos)
    (beginId repeatId endId : SymbolId) (c : Condition) :
    l.Tested (Asm.testBefore beginId repeatId endId c pos s) := by
  show l.Tested (EStateM.bind Asm.peekToken _ s)
  unfold EStateM.bind
  rw [h.peekToken]
  show l.Tested ((if token.isKeyword .loopEnd && s.reachesBack (s.symbols.address repeatId) 2 then _ else _ : Asm Flow) s)
  split
  · rename_i closes
    rw [Bool.and_eq_true] at closes
    show l.Tested (EStateM.bind Asm.nextToken _ s)
    unfold EStateM.bind
    rw [nextToken_of_next (h.tokens ▸ TokenStream.next_unread_of_next h.read)]
    exact tested_testBack (.inr ⟨k, h.empties, rfl⟩) h.on closes.2 beginId endId c pos
  · exact tested_testOut here h.past beginId endId c

/-- The test of a loop reads its line and looks for the next token behind it, which may be the end of the loop. -/
theorem runs_whileTest (here : l.At pos) : l.Runs l.Tested (Asm.whileTest pos) := by
  have work := closed_stays (l := l)
  have fails {e : Error} {t : Assembler} (h : l.Fails e t) : l.Tested (.error e t) := h.tested (.inl rfl)
  refine .bind fails work.condition fun c => Runs.get fun s => ?_
  split
  · rename_i beginId repeatId endId tested top
    dsimp only
    split
    · exact fun _ on => fails ⟨blames_at here _, .inl on⟩
    · refine .bind fails (work.pause (pauses_setTop _)) fun _ => ?_
      refine Runs.bind fails runs_endOfStatement fun _ t ended => ?_
      show l.Tested (EStateM.bind (Asm.skipEmptyLines t.tokens.budget) _ t)
      unfold EStateM.bind
      have fits : t.tokens.Fits := by
        obtain ⟨k, empties, fits, resumes, -⟩ := ended
        exact (resumes.holds (empties.fresh l.fresh) fits).2.fits
      have sought := sought_skipEmptyLines t.tokens.budget ended fits.weigh_lt_budget
      generalize Asm.skipEmptyLines t.tokens.budget t = r at sought
      cases sought with
      | strayed h => exact .strayed h
      | found h => exact tested_testBefore h here beginId repeatId endId c
  · exact .fail fails here _

/-! ### Statements -/

/-- How a statement on the line ends. -/
inductive Ran (l : SourceLine) : EStateM.Result Error Assembler Flow → Prop where
  | ended {m : SourceLine} {flow : Flow} {t : Assembler} (leads : l.LeadsTo m) (precedes : m.Precedes t.tokens) :
      Ran l (.ok flow t)
  /-- An inclusion goes on with a file. -/
  | entered {id : Nat} {pos : Position} {t : Assembler} (pushed : l.behind.pushFile t.files id pos = .ok t.tokens) :
      Ran l (.ok .goOn t)
  | failed {m : SourceLine} {e : Error} {t : Assembler} (leads : l.LeadsTo m)
      (blames : e.category ≠ .duplicate → Blames m.At e) (left : m.On t ∨ m.Past t) : Ran l (.error e t)
  /-- A test looked ahead. -/
  | strayed {pos : Position} {s t : Assembler} {e : Error} (on : l.On s) (test : Asm.whileTest pos s = .error e t)
      (strays : l.Strays e t) : Ran l (.error e t)
  | fatal {e : Error} {t : Assembler} (fatal : e.isFatal = true) : Ran l (.error e t)

theorem Ran.fails (h : l.Fails e t) : l.Ran (.error e t) := .failed (.inl rfl) (fun _ => h.blames) h.left

theorem ran_of_ended {x : Asm Flow} (h : l.Runs (l.Outcome l.Ended) x) : l.Runs l.Ran x := by
  intro s on
  have ends := h s on
  generalize x s = r at ends
  cases ends with
  | ok h => exact .ended (.inl rfl) h.precedes
  | error h => exact .fails h

theorem ran_whileTest (here : l.At pos) : l.Runs l.Ran (Asm.whileTest pos) := by
  intro s on
  have tested := runs_whileTest here s on
  generalize run : Asm.whileTest pos s = r at tested
  cases tested with
  | ended leads precedes => exact .ended leads precedes
  | failed leads blames left => exact .failed leads blames left
  | strayed strays => exact .strayed on run strays

theorem unreadable_of_load {path : Path} {cause : Cause} (h : s.load path = .error cause) :
    ∃ failure, cause = .unreadable path failure := by
  unfold load SourceTable.load at h
  split at h
  · cases h
  · rename_i refused
    cases h
    split at refused
    · cases refused
    · split at refused <;> cases refused
      exact ⟨_, rfl⟩

/-- Where the end of the line has been read, a file can be opened. -/
theorem ran_openInclude (took : l.Took token s.tokens) (lineEnded : s.lineEnded = (token.lexeme == .endOfLine))
    (ends : token.endsStatement = true) (here : l.At pos) (name : String) :
    l.Ran ((do Asm.openInclude name pos; return .goOn : Asm Flow) s) := by
  have behind := took.ended ends
  show l.Ran (EStateM.bind (Asm.openInclude name pos) _ s)
  unfold EStateM.bind Asm.openInclude
  cases loaded : s.load (s.files.resolveInclude pos.file name) with
  | error cause =>
    refine .fatal ?_
    obtain ⟨failure, rfl⟩ := unreadable_of_load loaded
    rfl
  | ok found =>
    obtain ⟨id, t⟩ := found
    have same := load_eq loaded
    have tokens : t.tokens = s.tokens := by rw [same]
    have ended : t.lineEnded = s.lineEnded := by rw [same]
    dsimp only
    cases pushed : t.tokens.pushFile t.files id pos with
    | ok files =>
      rw [tokens, behind] at pushed
      exact .entered pushed
    | error e =>
      rw [← tokens] at took
      rw [← ended] at lineEnded
      unfold TokenStream.pushFile at pushed
      split at pushed
      · cases pushed
        exact .fails (took.fails lineEnded (blames_at here _))
      · split at pushed <;> cases pushed
        exact .fatal rfl

theorem runs_includeFile (here : l.At pos) : l.Runs l.Ran (Asm.includeFile pos) := by
  refine .next .fails fun token there => ?_
  split
  · refine .inside (Token.inside_of_lexeme ‹_› rfl) (.next .fails fun last there => ?_)
    intro s took lineEnded
    cases ends : last.endsStatement with
    | false => exact .fails (took.fails lineEnded (blames_at there _))
    | true => exact ran_openInclude took lineEnded ends here _
  · exact .fail .fails there _

/-- Directives end with their line, but for a test, which looks ahead, and an inclusion, which goes on with a file. -/
theorem runs_directive (here : l.At pos) (k : Keyword) : l.Runs l.Ran (Asm.directive k pos) := by
  have work := closed_stays (l := l)
  have ends {work : Asm Unit} (h : l.Stays work) : l.Runs l.Ran (Asm.thenEnd work) := ran_of_ended (runs_thenEnd h)
  cases k with
  | codeSpace | dataSpace | zeroPageSpace => exact ends fun _ on => .ok ⟨on.lineEnded, on.holds⟩
  | bytes => exact ends work.defineBytes
  | words => exact ends work.defineWords
  | reserve => exact ends (work.reserve here)
  | declarePublic | declareExternal => exact ends (work.declare _)
  | includeFile => exact runs_includeFile here
  | endSource => exact ran_of_ended (.bind .error runs_endOfStatement fun _ _ => .ok)
  | ifBlock => exact ends (work.beginIf here)
  | elseIf => exact ends (work.elseIf here)
  | elsePart => exact ends (work.pause (pauses_elsePart here))
  | endIf => exact ends (work.pause (pauses_endIf here))
  | doBlock => exact ends (work.pause (pauses_beginDo here))
  | whileTest => exact ran_whileTest here
  | loopEnd => exact ends (work.pause (pauses_endLoop here))
  | equate => exact .fail .fails here _

/-- A statement runs on its line, label after label. -/
theorem runs_statementWithin (n : Nat) (here : l.At token.pos) : l.Runs l.Ran (Asm.statementWithin n token) := by
  have work := closed_stays (l := l)
  induction n generalizing token with
  | zero => exact .fail .fails here _
  | succ n ih =>
    rw [Asm.statementWithin]
    split
    · exact runs_directive here _
    · refine .next .fails fun after there => ?_
      split
      · refine .inside (Token.inside_of_isPunct ‹_›) (.bind .fails (work.placeName here _) fun _ => ?_)
        refine Runs.next .fails fun token there => ?_
        split
        · exact .unread (ran_of_ended runs_endOfStatement)
        · exact .inside (Bool.not_eq_true _ ▸ ‹_›) (ih there)
      · split
        · rename_i sets
          have inside : after.endsStatement = false :=
            (Bool.or_eq_true_iff.1 sets).elim Token.inside_of_isKeyword Token.inside_of_isPunct
          exact .inside inside (ran_of_ended (runs_thenEnd (work.equate here _)))
        · refine .unread (.get fun s => ?_)
          split
          · exact ran_of_ended (runs_thenEnd (work.instruction here _))
          · exact .fail .fails here _
    · exact .fail .fails here _

/-- A statement leaves its line, or fails on it. -/
theorem runs_statement (here : l.At token.pos) : l.Runs l.Ran (Asm.statement token) :=
  fun s on => runs_statementWithin s.tokens.budget here s on

end SourceLine

end Asm65
