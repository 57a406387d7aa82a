import Asm65.Proofs.Grammar
import Asm65.Proofs.StatementReading

/-!
# Loops over tokens

The loops of a statement count their rounds against a limit. Here they are recursions without one, and come to an end:
each round takes a token that is not the end of the root file, or drops the rest of a line. The limits are never met, so
the loops give what the recursions do (`loopsEnd`).
-/

namespace Asm65
set_option autoImplicit false

/-! ### Skipping a line -/

namespace TokenStream

variable {s : TokenStream}

/-- Reads on until a line has ended. -/
def skipping (self : TokenStream → TokenStream) (s : TokenStream) : TokenStream :=
  match s.next with
  | (.ok t, s) =>
    match t.lexeme with
    | .endOfFile => s.unread t
    | .endOfLine => s
    | _ => self s
  | (.error _, s) => self { s with top := s.top.lineEnd }

theorem skipLineWithin_eq (n : Nat) : skipLineWithin n = unfolded skipping id n := by
  induction n with
  | zero => rfl
  | succ n ih =>
    rw [unfolded, ← ih]
    rfl

/-- After the token that stops the reading: behind the end of a line, or in front of the end of the root file. -/
def StopsAt (s t : TokenStream) : Prop :=
  ∃ u v token, s.Onward u ∧ u.next = (.ok token, v)
    ∧ (token.lexeme = .endOfFile ∧ t = v.unread token ∨ token.lexeme = .endOfLine ∧ t = v)

/-- A turn of skipping a line stops, or goes on with less to read. -/
theorem descends_skipping :
    Descends skipping (fun s f => f s) (weigh fun _ => 1) Fits StopsAt := by
  intro f g s fits calls
  have positive (d : Nat) : 1 ≤ (fun _ => 1 : Nat → Nat) d := Nat.le_refl 1
  -- a call goes on from further on in the text
  have later {t : TokenStream} (reads : s.Onward t) (lighter : weigh (fun _ => 1) t + 1 ≤ weigh (fun _ => 1) s) :
      f t = g t ∧ s.StopsAt (f t) := by
    obtain ⟨same, u, v, token, onward, stops⟩ := calls t (fits.onward reads) lighter
    exact ⟨same, u, v, token, reads.trans onward, stops⟩
  show skipping f s = skipping g s ∧ s.StopsAt (skipping f s)
  unfold skipping
  cases read : s.next with
  | mk r t =>
    cases r with
    | error e =>
      exact later (.tail (.single (.take read)) .skip) (weigh_lineEnd_lt positive read)
    | ok token =>
      have lighter := weigh_next positive read
      dsimp only
      split
      · rename_i last
        exact ⟨rfl, s, t, token, .refl, read, .inl ⟨last, rfl⟩⟩
      · rename_i last
        exact ⟨rfl, s, t, token, .refl, read, .inr ⟨last, rfl⟩⟩
      · rename_i more _
        rw [Token.weight_eq_one more] at lighter
        exact later (.single (.take read)) lighter

theorem stopsAt_skipLine (fits : s.Fits) : s.StopsAt s.skipLine := by
  rw [skipLine, skipLineWithin_eq]
  exact (descends_skipping.decided id id fits fits.weigh_lt_budget).2

theorem StopsAt.onward {t : TokenStream} (h : s.StopsAt t) : s.Onward t := by
  obtain ⟨u, v, token, onward, read, ⟨-, rfl⟩ | ⟨-, rfl⟩⟩ := h
  · exact .tail onward (.look read)
  · exact .tail onward (.take read)

end TokenStream

/-! ### Expressions -/

namespace Expression

/-- What reading an expression calls. -/
inductive Call (α : Type) where
  | climb (least : Nat)
  | climbFrom (left : α) (least : Nat)
  | unary
  | primary

variable {σ α : Type}

/-- Calls that read no token before they call another one come later. -/
def Call.rank : Call α → Nat
  | .climb _ => 3
  | .climbFrom .. => 1
  | .unary => 2
  | .primary => 1

theorem Call.rank_le (call : Call α) : call.rank ≤ 3 := by
  cases call <;> simp only [rank] <;> omega

section Climbing

variable [Arithmetic α] [Operands σ α]

/-- Reads an expression by climbing the precedence of its operators. -/
def climbing (self : Call α → EStateM Error σ α) : Call α → EStateM Error σ α
  | .climb least => do
    let left ← self .unary
    self (.climbFrom left least)
  | .climbFrom left least => do
    let t ← Operands.next
    match operator? t.lexeme with
    | some (op, precedence) =>
      if least ≤ precedence then
        let right ← self (.climb (precedence + 1))
        let value ← lift t.pos (Arithmetic.binary op left right)
        self (.climbFrom value least)
      else
        unread t
        return left
    | none =>
      unread t
      return left
  | .unary => Grammar.signedBy (self .unary) (self .primary)
  | .primary => Grammar.primaryBy (self (.climb 1))

/-- The reading of a call within a depth. -/
def Call.within (n : Nat) : Call α → EStateM Error σ α
  | .climb least => Expression.climb least n
  | .climbFrom left least => Expression.climbFrom left least n
  | .unary => Expression.unary n
  | .primary => Expression.primary n

theorem within_eq (n : Nat) : (Call.within n : Call α → EStateM Error σ α) = unfolded climbing (Call.within 0) n := by
  induction n with
  | zero => rfl
  | succ n ih =>
    rw [unfolded, ← ih]
    funext call
    cases call with
    | climb least => exact Expression.climb.eq_2 least n
    | climbFrom left least => exact Expression.climbFrom.eq_2 left least n
    | unary => exact Grammar.unary_succ
    | primary => exact Grammar.primary_succ

end Climbing

variable [Operands σ α] {γ δ : Type} {st : Grammar.Streams σ} {s t u : σ} {x y : EStateM Error σ γ}
  {g h : γ → EStateM Error σ δ}

/-- Both do the same from `s`, and what they read is behind `u`. -/
structure SameFrom (st : Grammar.Streams σ) (u s : σ) (x y : EStateM Error σ γ) : Prop where
  same : x s = y s
  within {a : γ} {t : σ} (h : x s = .ok a t) : st.Within u t

namespace SameFrom

theorem after (later : st.Within u s) (h : SameFrom st s s x y) : SameFrom st u s x y :=
  ⟨h.same, fun run => later.trans (h.within run)⟩

theorem pure (a : γ) (later : st.Within u s) : SameFrom st u s (pure a) (pure a) :=
  ⟨rfl, fun run => by cases run; exact later⟩

/-- What is the same in both parts is the same as a whole. -/
theorem bind (first : SameFrom st u s x y) (rest : ∀ {a t}, st.Within u t → SameFrom st u t (g a) (h a)) :
    SameFrom st u s (x >>= g) (y >>= h) := by
  obtain ⟨same, within⟩ := first
  show SameFrom st u s (EStateM.bind x g) (EStateM.bind y h)
  cases run : x s with
  | ok a t =>
    obtain ⟨same', within'⟩ := rest (a := a) (within run)
    refine ⟨?_, fun last => ?_⟩
    · rw [EStateM.bind, EStateM.bind, ← same, run]
      exact same'
    · rw [EStateM.bind, run] at last
      exact within' last
  | error e t =>
    refine ⟨?_, fun last => ?_⟩
    · rw [EStateM.bind, EStateM.bind, ← same, run]
    · rw [EStateM.bind, run] at last
      cases last

/-- Both read the same token first, and do the same after it. -/
theorem next {g h : Token → EStateM Error σ γ}
    (rest : ∀ {token t}, Operands.next s = .ok token t → SameFrom st u t (g token) (h token)) :
    SameFrom st u s (Operands.next >>= g) (Operands.next >>= h) := by
  show SameFrom st u s (EStateM.bind Operands.next g) (EStateM.bind Operands.next h)
  cases read : (Operands.next s : EStateM.Result Error σ Token) with
  | ok token t =>
    obtain ⟨same, within⟩ := rest read
    refine ⟨?_, fun last => ?_⟩
    · rw [EStateM.bind, EStateM.bind, read]
      exact same
    · rw [EStateM.bind, read] at last
      exact within last
  | error e t =>
    refine ⟨?_, fun last => ?_⟩
    · rw [EStateM.bind, EStateM.bind, read]
    · rw [EStateM.bind, read] at last
      cases last

theorem unread {token : Token} (rest : SameFrom st u (Operands.unread token s) x y) :
    SameFrom st u s (Expression.unread token >>= fun _ => x) (Expression.unread token >>= fun _ => y) :=
  ⟨rest.same, rest.within⟩

theorem fail {z : EStateM Error σ γ} (failed : ∃ e t, z s = .error e t) : SameFrom st u s z z := by
  refine ⟨rfl, fun run => ?_⟩
  obtain ⟨e, t, failed⟩ := failed
  cases failed.symm.trans run

theorem lift (pos : Position) (a : Except Cause α) (later : st.Within u s) :
    SameFrom st u s (Expression.lift pos a) (Expression.lift pos a) := by
  cases a with
  | ok a => exact pure a later
  | error cause => exact fail ⟨_, _, rfl⟩

theorem locating (pos : Position) {x y : EStateM Error σ α} (h : SameFrom st u s x y) :
    SameFrom st u s (Expression.locating pos x) (Expression.locating pos y) := by
  refine ⟨?_, fun run => ?_⟩
  · rw [Expression.locating, Expression.locating, h.same]
  · unfold Expression.locating at run
    split at run
    · rename_i found
      cases run
      exact h.within found
    · cases run

theorem expect (p : Punct) (later : st.Within u s) : SameFrom st u s (Expression.expect p) (Expression.expect p) := by
  refine next fun {token t} read => ?_
  split
  · exact pure () (later.trans (Grammar.Streams.within_next later.fits read))
  · exact fail ⟨_, _, rfl⟩

end SameFrom

/-- Every call reads a token before it comes back to itself. -/
theorem descends_climbing [Arithmetic α] (st : Grammar.Streams σ) :
    Descends climbing (fun (i : Call α × σ) f => f i.1 i.2) (fun i => 3 * st.left i.2 + i.1.rank)
      (fun i => (st.tokens i.2).Fits) (fun i r => ∀ a t, r = .ok a t → st.Within i.2 t) := by
  rintro f g ⟨call, s⟩ fits calls
  change (st.tokens s).Fits at fits
  have called {c : Call α} {t : σ} (fits : (st.tokens t).Fits)
      (smaller : 3 * st.left t + c.rank < 3 * st.left s + call.rank) : SameFrom st t t (f c) (g c) := by
    obtain ⟨same, within⟩ := calls ⟨c, t⟩ fits smaller
    exact ⟨same, fun run => within _ _ run⟩
  -- behind a token other than the end of the file
  have behind {token : Token} {t : σ} (read : Operands.next s = .ok token t) (more : token.lexeme ≠ .endOfFile) :
      st.Within s t ∧ st.left t + 1 ≤ st.left s :=
    ⟨Grammar.Streams.within_next fits read, Token.weight_eq_one more ▸ Grammar.Streams.left_next read⟩
  suffices h : SameFrom st s s (climbing f call) (climbing g call) from ⟨h.same, fun a t run => h.within run⟩
  cases call with
  | climb least =>
    refine .bind (called fits (Nat.lt_succ_self _)) fun {left t} later => .after later (called later.fits ?_)
    have shorter := later.left
    simp only [Call.rank]
    omega
  | climbFrom left least =>
    refine .next fun {token t} read => ?_
    have stop : SameFrom st s t (do Expression.unread token; return left) (do Expression.unread token; return left) :=
      .unread (.pure left (Grammar.Streams.within_unread fits read))
    cases found : operator? token.lexeme with
    | none => exact stop
    | some mark =>
      dsimp only
      split
      · obtain ⟨later, shorter⟩ := behind read fun last => by rw [last] at found; cases found
        refine .after later (.bind (called later.fits ?_) fun {right v} later => ?_)
        · simp only [Call.rank]
          omega
        · refine (SameFrom.lift token.pos _ later).bind fun {value w} later => ?_
          have shorter := later.left
          refine .after later (called later.fits ?_)
          simp only [Call.rank]
          omega
      · exact stop
  | unary =>
    refine .next fun {token t} read => ?_
    have operand (more : token.lexeme ≠ .endOfFile) : SameFrom st s t (f .unary) (g .unary) := by
      obtain ⟨later, shorter⟩ := behind read more
      exact .after later (called later.fits (by omega))
    split
    · rename_i plus
      refine .locating token.pos (operand fun last => ?_)
      rw [Token.isPunct, last] at plus
      cases plus
    · cases found : (Grammar.sign? token.lexeme : Option (α → Except Cause α)) with
      | some sign =>
        refine (operand fun last => ?_).bind fun later => .lift token.pos _ later
        rw [last] at found
        cases found
      | none =>
        have back := Grammar.Streams.within_unread fits read
        have shorter := back.left
        refine .unread (.after back (called back.fits ?_))
        simp only [Call.rank]
        omega
  | primary =>
    refine .next fun {token t} read => ?_
    have later := Grammar.Streams.within_next fits read
    split
    · exact .pure _ later
    · exact ⟨rfl, fun found => later.trans (Grammar.Streams.within_resolve later.fits found)⟩
    · rename_i close found _ _
      obtain ⟨later, shorter⟩ := behind read fun last => by rw [last] at found; cases found
      refine .bind (.after later (called later.fits ?_)) fun {v w} later => ?_
      · simp only [Call.rank]
        omega
      · exact (SameFrom.expect close later).bind fun later => .pure _ later
    · split
      · exact ⟨rfl, fun run => by cases run; exact later⟩
      · exact .fail ⟨_, _, rfl⟩

/-- The limit on the depth is never met. -/
theorem ends_within [Arithmetic α] (st : Grammar.Streams σ) {s : σ} (fits : (st.tokens s).Fits) (call : Call α) :
    Ends climbing (fun f => f call s) (call.within (depthFor (Operands.budget s)) s) := by
  rw [within_eq]
  refine (descends_climbing st).ends (Call.within 0) (i := (call, s)) fits ?_
  have short : st.left s < (st.tokens s).budget := fits.weigh_lt_budget
  have low := call.rank_le
  rw [depthFor, st.budget]
  show 3 * st.left s + call.rank < _
  omega

end Expression

/-! ### Statements -/

namespace Asm

/-- Reads past the ends of empty lines. -/
def emptyLines (self : Asm Unit) : Asm Unit := do
  let t ← nextToken
  if t.lexeme = .endOfLine then self
  else
    unread t
    modify fun s => { s with lineEnded := true }

/-- A statement that starts with the given token, behind any number of labels. -/
def labelled (self : Token → Asm Flow) (t : Token) : Asm Flow := do
  match t.lexeme with
  | .keyword k => directive k t.pos
  | .identifier name =>
    let after ← nextToken
    if after.isPunct .colon then
      placeName name t.pos
      let t ← nextToken
      if t.endsStatement then
        unread t
        endOfStatement
      else self t
    else if after.isKeyword .equate || after.isPunct .equals then thenEnd (equate name t.pos)
    else
      unread after
      match (← get).cpu.mnemonic? name with
      | some m => thenEnd (instruction m t.pos)
      | none => fail (.unknownInstruction name) t.pos
  | lexeme => fail (.unexpectedToken lexeme) t.pos

theorem skipEmptyLines_eq (n : Nat) : skipEmptyLines n = unfolded emptyLines (pure ()) n := by
  induction n with
  | zero => rfl
  | succ n ih =>
    rw [unfolded, ← ih]
    rfl

theorem statementWithin_eq (n : Nat) : statementWithin n = unfolded labelled (statementWithin 0) n := by
  induction n with
  | zero => rfl
  | succ n ih =>
    rw [unfolded, ← ih]
    rfl

end Asm

namespace Assembler

variable {s t : Assembler}

/-- How many tokens are left at most. -/
def left (s : Assembler) : Nat := s.tokens.weigh fun _ => 1

theorem Along.of_ok {ρ : Assembler → Assembler → Prop} {α : Type} {x : Asm α} {a : α} (h : Along ρ x)
    (run : x s = .ok a t) :
    ρ s t := by
  have reached := h s
  rwa [run] at reached

theorem Passes.fits (h : Passes s t) (fits : s.tokens.Fits) : t.tokens.Fits := fits.onward h.tokens

theorem Passes.left_le (h : Passes s t) : t.left ≤ s.left := TokenStream.weigh_onward (fun _ => Nat.le_refl 1) h.tokens

theorem left_lt_of_nextToken {token : Token} (run : Asm.nextToken s = .ok token t) (more : token.lexeme ≠ .endOfFile) :
    t.left < s.left := by
  have lighter : t.left + token.weight ≤ s.left :=
    TokenStream.weigh_next (fun _ => Nat.le_refl 1) (took_nextToken run).next
  rwa [Token.weight_eq_one more] at lighter

/-- A list goes on behind its comma. -/
theorem left_lt_of_comma (run : Asm.comma s = .ok true t) : t.left < s.left := by
  obtain ⟨token, u, read, rest⟩ := exists_of_bind_eq_ok run
  split at rest
  · rename_i comma
    cases rest
    refine left_lt_of_nextToken read fun last => ?_
    rw [Token.isPunct, last] at comma
    cases comma
  · cases rest

theorem descends_listed {entry : Asm Unit} (along : Along Passes entry) :
    Descends (Asm.listed entry) (fun s f => f s) left (fun s => s.tokens.Fits) (fun _ _ => True) := by
  intro f g s fits calls
  refine ⟨bind_eq_bind fun _ t first => bind_eq_bind fun more u comma => ?_, trivial⟩
  have passes := along.of_ok first
  split
  · rename_i again
    subst again
    have shorter : u.left < s.left := Nat.lt_of_lt_of_le (left_lt_of_comma comma) passes.left_le
    exact (calls u ((passes.trans (closed_along.comma.of_ok comma)).fits fits) shorter).1
  · rfl

theorem descends_emptyLines :
    Descends Asm.emptyLines (fun s f => f s) left (fun s => s.tokens.Fits) (fun _ _ => True) := by
  intro f g s fits calls
  refine ⟨bind_eq_bind fun token t read => ?_, trivial⟩
  split
  · rename_i line
    refine (calls t ((took_nextToken read).passes.fits fits) (left_lt_of_nextToken read fun last => ?_)).1
    rw [line] at last
    cases last
  · rfl

/-- A label goes on with the token behind it, and less is left to read. -/
theorem descends_labelled :
    Descends Asm.labelled (fun (i : Token × Assembler) f => f i.1 i.2) (fun i => i.2.left) (fun i => i.2.tokens.Fits)
      (fun _ _ => True) := by
  rintro f g ⟨⟨lexeme, pos⟩, s⟩ fits calls
  refine ⟨?_, trivial⟩
  cases lexeme with
  | identifier name =>
    refine bind_eq_bind fun after t colon => ?_
    split
    · rename_i mark
      refine bind_eq_bind fun _ u placed => bind_eq_bind fun first v read => ?_
      split
      · rfl
      · have place : Passes t u := (closed_along.placeName trivial _).of_ok placed
        have passes := place.trans (took_nextToken read).passes
        refine (calls (first, v) (((took_nextToken colon).passes.trans passes).fits fits) ?_).1
        refine Nat.lt_of_le_of_lt passes.left_le (left_lt_of_nextToken colon fun last => ?_)
        rw [Token.isPunct, last] at mark
        cases mark
    · rfl
  | _ => rfl

/-- The loops of a statement come to an end, with what the statement makes of them. -/
structure LoopsEnd (s : Assembler) : Prop where
  skipLine : Ends TokenStream.skipping (fun f => f s.tokens) s.tokens.skipLine
  expression : Ends Expression.climbing (fun f => f (.climb 1) s) (Asm.expression s)
  goOn (left : Address) (least : Nat) :
    Ends Expression.climbing (fun f => f (.climbFrom left least) s) (Expression.goOn left least s)
  bytes : Ends (Asm.listed Asm.byteEntry) (fun f => f s) (Asm.defineBytes s)
  words : Ends (Asm.listed Asm.wordEntry) (fun f => f s) (Asm.defineWords s)
  names (isPublic : Bool) : Ends (Asm.listed (Asm.nameEntry isPublic)) (fun f => f s) (Asm.declare isPublic s)
  emptyLines : Ends Asm.emptyLines (fun f => f s) ((do Asm.skipEmptyLines (← Asm.budget) : Asm Unit) s)
  labels (token : Token) : Ends Asm.labelled (fun f => f token s) (Asm.statement token s)

/-- Each loop of a statement reads a token in every turn, so the fuel given to it is enough. -/
theorem loopsEnd (fits : s.tokens.Fits) : s.LoopsEnd where
  skipLine := by
    rw [TokenStream.skipLine, TokenStream.skipLineWithin_eq]
    exact TokenStream.descends_skipping.ends id fits fits.weigh_lt_budget
  expression := Expression.ends_within Grammar.assemblerStreams fits (.climb 1)
  goOn left least := Expression.ends_within Grammar.assemblerStreams fits (.climbFrom left least)
  bytes := by
    show Ends _ _ (Asm.bytesWithin s.tokens.budget s)
    rw [Asm.bytesWithin_eq]
    exact (descends_listed closed_along.byteEntry).ends (pure ()) fits fits.weigh_lt_budget
  words := by
    show Ends _ _ (Asm.wordsWithin s.tokens.budget s)
    rw [Asm.wordsWithin_eq]
    exact (descends_listed closed_along.wordEntry).ends (pure ()) fits fits.weigh_lt_budget
  names isPublic := by
    show Ends _ _ (Asm.declareWithin isPublic s.tokens.budget s)
    rw [Asm.declareWithin_eq]
    exact (descends_listed (closed_along.nameEntry isPublic)).ends (pure ()) fits fits.weigh_lt_budget
  emptyLines := by
    show Ends _ _ (Asm.skipEmptyLines s.tokens.budget s)
    rw [Asm.skipEmptyLines_eq]
    exact descends_emptyLines.ends (pure ()) fits fits.weigh_lt_budget
  labels token := by
    show Ends _ _ (Asm.statementWithin s.tokens.budget token s)
    rw [Asm.statementWithin_eq]
    exact descends_labelled.ends (Asm.statementWithin 0) (i := (token, s)) fits fits.weigh_lt_budget

end Assembler

end Asm65
