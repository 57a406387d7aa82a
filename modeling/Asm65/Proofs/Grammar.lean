import Asm65.Proofs.Evaluation
import Asm65.Proofs.TokenSupply
import Asm65.Proofs.Unfolding

/-!
# The grammar of expressions

Expressions are read by climbing the precedence of operators. The grammar that this stands for has a level for each
stratum of operators: an operand is an expression of the tighter strata, and operators of one stratum combine from left
to right. `Grammar.rules` evaluates by this grammar, with a token put back at the end of each level.

Both give the same value and leave the same tokens, and refuse the same expressions. They differ in one place. The
grammar has nothing to look for behind the right operand of `*`, `/` and `%`, while climbing looks at the token there
before it applies the operator. If the operator refuses its operands and that token cannot be read, climbing reports
the token and the grammar the operator (`read_eq_or_lookAhead`).
-/

namespace Asm65
set_option autoImplicit false

namespace Grammar

/-! ### Levels -/

/-- Operators that bind equally tightly, with their marks. -/
abbrev Stratum := List (Punct × Operator)

/-- The operator of a stratum that a lexeme stands for. -/
def Stratum.operator? (ops : Stratum) : Lexeme → Option Operator
  | .punct p => ops.lookup p
  | _ => none

/-- The loosest operators first. -/
def strata : List Stratum :=
  [[(.pipe, .or)],
   [(.caret, .xor)],
   [(.amp, .and)],
   [(.shl, .shl), (.shr, .shr)],
   [(.plus, .add), (.minus, .sub)],
   [(.star, .mul), (.slash, .div), (.percent, .mod)]]

section Rules

variable {σ α : Type} [Arithmetic α] [Operands σ α]

/-- What the mark in front of an operand does to it. -/
def sign? : Lexeme → Option (α → Except Cause α)
  | .punct p => [(Punct.minus, Arithmetic.negate), (.tilde, Arithmetic.complement), (.less, Arithmetic.select .low),
      (.greater, Arithmetic.select .high)].lookup p
  | _ => none

/-- The mark that closes what a lexeme opens. -/
def closer? : Lexeme → Option Punct
  | .punct p => [(Punct.lparen, Punct.rparen), (.lbracket, .rbracket)].lookup p
  | _ => none

/-- Marks in front of an operand, then a primary. -/
def signedBy (signed primary : EStateM Error σ α) : EStateM Error σ α := do
  let token ← Operands.next
  if token.isPunct .plus then Expression.locating token.pos signed
  else
    match (sign? token.lexeme : Option (α → Except Cause α)) with
    | some sign => Expression.lift token.pos (sign (← signed))
    | none =>
      Expression.unread token
      primary

/-- A number, a name, the location, or a whole expression between marks that match. -/
def primaryBy (whole : EStateM Error σ α) : EStateM Error σ α := do
  let token ← Operands.next
  match token.lexeme, closer? token.lexeme with
  | .number v, _ => return Arithmetic.constant (UInt16.ofNat v)
  | .identifier name, _ => Operands.resolve name token.pos
  | _, some close =>
    let v ← whole
    Expression.expect close
    return v
  | lexeme, none =>
    if token.isPunct .star then return Operands.location (← get)
    else Expression.refuse token (.expressionExpected lexeme)

/-- What the grammar has a rule for. -/
inductive Phrase (α : Type) where
  /-- An expression with operators of these strata. -/
  | level (strata : List Stratum)
  /-- What follows the first operand of a stratum. -/
  | tail (ops : Stratum) (tighter : List Stratum) (left : α)
  | signed
  | primary

/-- Evaluates a phrase by evaluating its parts. -/
def rules (self : Phrase α → EStateM Error σ α) : Phrase α → EStateM Error σ α
  | .level [] => self .signed
  | .level (ops :: tighter) => do
    let left ← self (.level tighter)
    self (.tail ops tighter left)
  | .tail ops tighter left => do
    let token ← Operands.next
    match ops.operator? token.lexeme with
    | some op =>
      let right ← self (.level tighter)
      let value ← Expression.lift token.pos (Arithmetic.binary op left right)
      self (.tail ops tighter value)
    | none =>
      Expression.unread token
      return left
  | .signed => signedBy (self .signed) (self .primary)
  | .primary => primaryBy (self (.level strata))

/-- The grammar gives a phrase this result. -/
def Evaluates (p : Phrase α) (s : σ) (r : EStateM.Result Error σ α) : Prop := Ends rules (fun f => f p s) r

/-! ### The marks of operators -/

theorem operator?_of_getElem? {k : Nat} {ops : Stratum} (h : strata[k]? = some ops) (lexeme : Lexeme) :
    ops.operator? lexeme =
      (Expression.operator? lexeme).bind fun found => if found.2 = k + 1 then some found.1 else none := by
  obtain _ | _ | _ | _ | _ | _ | k := k
  all_goals
    cases h
  all_goals
    cases lexeme with
    | punct p => cases p <;> rfl
    | _ => rfl

/-- No operator that binds as tightly as `least`. -/
def Stops (least : Nat) (token : Token) : Prop :=
  ∀ op precedence, Expression.operator? token.lexeme = some (op, precedence) → precedence < least

theorem Stops.operator? {k : Nat} {token : Token} (stops : Stops (k + 1) token) :
    ∀ ops ∈ strata.drop k, ops.operator? token.lexeme = none := by
  intro ops mem
  obtain ⟨i, found⟩ := List.mem_iff_getElem?.1 mem
  rw [List.getElem?_drop] at found
  rw [operator?_of_getElem? found]
  cases mark : Expression.operator? token.lexeme with
  | none => rfl
  | some found =>
    have loose := stops found.1 found.2 mark
    exact if_neg (by omega)

/-- The stratum of an operator. -/
theorem exists_stratum {lexeme : Lexeme} {op : Operator} {precedence : Nat}
    (h : Expression.operator? lexeme = some (op, precedence)) :
    ∃ k ops, precedence = k + 1 ∧ strata[k]? = some ops ∧ ops.operator? lexeme = some op
      ∧ (strata.drop precedence = [] → op ∈ [Operator.mul, .div, .mod]) := by
  cases lexeme with
  | punct p =>
    cases p <;> cases h
    all_goals exact ⟨_, _, rfl, rfl, rfl, by decide⟩
  | _ => cases h

/-- The strata from that of an operator on, behind looser ones. -/
theorem drop_eq_append {k j : Nat} {ops : Stratum} (le : k ≤ j) (h : strata[j]? = some ops) :
    ∃ looser, strata.drop k = looser ++ ops :: strata.drop (j + 1) := by
  obtain ⟨bound, rfl⟩ := List.getElem?_eq_some_iff.1 h
  refine ⟨(strata.drop k).take (j - k), ?_⟩
  rw [← List.drop_eq_getElem_cons bound]
  conv_lhs => rw [← List.take_append_drop (j - k) (strata.drop k), List.drop_drop, Nat.add_sub_cancel' le]

/-! ### Rules one by one -/

section Rule

variable {ops : Stratum} {tighter : List Stratum} {left right value : α} {s t u : σ} {token : Token} {op : Operator}
  {e : Error} {r : EStateM.Result Error σ α}

theorem Evaluates.unique {p : Phrase α} {r' : EStateM.Result Error σ α} (h : Evaluates p s r) (h' : Evaluates p s r') :
    r = r' :=
  Ends.unique (fun _ => Expression.missing) h h'

/-- Reads a token first. -/
theorem ends_next {γ : Type} {g : (Phrase α → EStateM Error σ α) → Token → EStateM Error σ γ}
    {r : EStateM.Result Error σ γ} (read : Operands.next s = .ok token t) (rest : Ends rules (fun f => g f token t) r) :
    Ends rules (fun f => (Operands.next >>= g f) s) r :=
  Ends.bind (read ▸ Ends.const _) rest

theorem ends_next_error {γ : Type} {g : (Phrase α → EStateM Error σ α) → Token → EStateM Error σ γ}
    (failed : Operands.next s = .error e t) : Ends rules (fun f => (Operands.next >>= g f) s) (.error e t) :=
  Ends.bind_error (failed ▸ Ends.const _)

theorem tail_unreadable (failed : Operands.next s = .error e t) : Evaluates (.tail ops tighter left) s (.error e t) :=
  .call (ends_next_error failed)

theorem tail_end (read : Operands.next s = .ok token t) (none : ops.operator? token.lexeme = none) :
    Evaluates (.tail ops tighter left) s (.ok left (Operands.unread token t)) := by
  refine .call (ends_next read ?_)
  rw [none]
  exact .const _

/-- Behind an operator. -/
theorem tail_next (read : Operands.next s = .ok token t) (found : ops.operator? token.lexeme = some op)
    (rest : Ends rules (fun f => (f (.level tighter) >>= fun right =>
      Expression.lift token.pos (Arithmetic.binary op left right) >>= fun value => f (.tail ops tighter value)) t) r) :
    Evaluates (.tail ops tighter left) s r := by
  refine .call (ends_next read ?_)
  rw [found]
  exact rest

theorem tail_operand_error (read : Operands.next s = .ok token t) (found : ops.operator? token.lexeme = some op)
    (operand : Evaluates (.level tighter) t (.error e u)) : Evaluates (.tail ops tighter left) s (.error e u) :=
  tail_next read found (.bind_error operand)

theorem tail_refused {cause : Cause} (read : Operands.next s = .ok token t)
    (found : ops.operator? token.lexeme = some op) (operand : Evaluates (.level tighter) t (.ok right u))
    (refused : Arithmetic.binary op left right = .error cause) :
    Evaluates (.tail ops tighter left) s (.error (.at_ cause token.pos) u) := by
  refine tail_next read found (.bind operand ?_)
  rw [refused]
  exact .bind_error (.const _)

theorem tail_more (read : Operands.next s = .ok token t) (found : ops.operator? token.lexeme = some op)
    (operand : Evaluates (.level tighter) t (.ok right u)) (combined : Arithmetic.binary op left right = .ok value)
    (more : Evaluates (.tail ops tighter value) u r) : Evaluates (.tail ops tighter left) s r := by
  refine tail_next read found (.bind operand ?_)
  rw [combined]
  exact .bind (.const _) more

/-- What follows an operand is found by its tokens. -/
theorem Evaluates.tail_congr (same : (Operands.next s : EStateM.Result Error σ Token) = Operands.next t)
    (h : Evaluates (.tail ops tighter left) s r) : Evaluates (.tail ops tighter left) t r := by
  obtain ⟨n, ends⟩ := h.eventually
  refine ⟨n + 1, fun out => ?_⟩
  rw [← ends (n + 1) (Nat.le_succ n) out]
  show EStateM.bind Operands.next _ t = EStateM.bind Operands.next _ s
  unfold EStateM.bind
  rw [same]

/-- What follows an operand in all of the given strata, the tightest first. -/
inductive Tails (left : α) (s : σ) : List Stratum → EStateM.Result Error σ α → Prop where
  | nil : Tails left s [] (.ok left s)
  | error {ops : Stratum} {tighter : List Stratum} {e : Error} {t : σ} (h : Tails left s tighter (.error e t)) :
    Tails left s (ops :: tighter) (.error e t)
  | cons {ops : Stratum} {tighter : List Stratum} {a : α} {t : σ} {r : EStateM.Result Error σ α}
    (h : Tails left s tighter (.ok a t)) (more : Evaluates (.tail ops tighter a) t r) : Tails left s (ops :: tighter) r

theorem Tails.level {levels : List Stratum} (operand : Evaluates .signed s (.ok left t)) (h : Tails left t levels r) :
    Evaluates (.level levels) s r := by
  induction h with
  | nil => exact .call operand
  | error _ ih => exact .call (.bind_error ih)
  | cons _ more ih => exact .call (.bind ih more)

theorem level_error (operand : Evaluates .signed s (.error e t : EStateM.Result Error σ α)) (levels : List Stratum) :
    Evaluates (.level levels) s (.error e t : EStateM.Result Error σ α) := by
  induction levels with
  | nil => exact .call operand
  | cons ops tighter ih => exact .call (.bind_error ih)

theorem Tails.append_error {looser : List Stratum} (h : Tails left s tighter (.error e t)) :
    Tails left s (looser ++ tighter) (.error e t) := by
  induction looser with
  | nil => exact h
  | cons ops looser ih => exact .error ih

/-- The looser strata only see what the tighter ones give. -/
theorem Tails.append_congr {looser : List Stratum} (same : ∀ r, Tails value u tighter r → Tails left s tighter r)
    (h : Tails value u (looser ++ tighter) r) : Tails left s (looser ++ tighter) r := by
  induction looser generalizing r with
  | nil => exact same r h
  | cons ops looser ih =>
    cases h with
    | error h => exact .error (ih h)
    | cons h more => exact .cons (ih h) more

/-- Nothing follows in strata that do not have the next token. -/
theorem exists_tails_of_next {levels : List Stratum} (left : α) (read : Operands.next s = .ok token t)
    (again : Operands.next (Operands.unread token t) = .ok token t)
    (none : ∀ ops ∈ levels, ops.operator? token.lexeme = none) :
    ∃ u, Tails left s levels (.ok left u) ∧ Operands.next u = .ok token t
      ∧ (levels ≠ [] → u = Operands.unread token t) := by
  induction levels with
  | nil => exact ⟨s, .nil, read, fun some => (some rfl).elim⟩
  | cons ops tighter ih =>
    obtain ⟨u, tails, same, -⟩ := ih fun ops mem => none ops (List.mem_cons_of_mem _ mem)
    exact ⟨_, .cons tails (tail_end same (none ops List.mem_cons_self)), again, fun _ => rfl⟩

theorem Tails.eq_of_again {levels : List Stratum} (again : Operands.next (Operands.unread token t) = .ok token t)
    (none : ∀ ops ∈ levels, ops.operator? token.lexeme = none) (h : Tails left (Operands.unread token t) levels r) :
    r = .ok left (Operands.unread token t) := by
  induction levels generalizing r with
  | nil =>
    cases h
    rfl
  | cons ops tighter ih =>
    have idle {r : EStateM.Result Error σ α} := ih (r := r) fun ops mem => none ops (List.mem_cons_of_mem _ mem)
    cases h with
    | error h => cases idle h
    | cons h more =>
      cases idle h
      exact more.unique (tail_end again (none ops List.mem_cons_self))

theorem tails_unreadable {levels : List Stratum} (some : levels ≠ []) (failed : Operands.next s = .error e t) :
    Tails left s levels (.error e t) := by
  induction levels with
  | nil => exact (some rfl).elim
  | cons ops tighter ih =>
    cases tighter with
    | nil => exact .cons .nil (tail_unreadable failed)
    | cons => exact .error (ih (List.cons_ne_nil _ _))

end Rule

end Rules

/-! ### One token ahead -/

section LookAhead

variable {σ α γ : Type} [Operands σ α] {token : Token} {s t : σ} {f : Error}

/-- A result after a look at the next token. -/
def lookAhead : EStateM.Result Error σ γ → EStateM.Result Error σ γ
  | .ok a s => (do let token ← Operands.next; Expression.unread token; return a : EStateM Error σ γ) s
  | .error e s => (do let token ← Operands.next; Expression.unread token; throw e : EStateM Error σ γ) s

theorem lookAhead_of_next (read : Operands.next s = .ok token t) (a : γ) :
    lookAhead (.ok a s) = .ok a (Operands.unread token t) := by
  show EStateM.bind Operands.next _ s = _
  rw [EStateM.bind, read]
  rfl

theorem lookAhead_error_of_next (read : Operands.next s = .ok token t) (e : Error) :
    lookAhead (.error e s : EStateM.Result Error σ γ) = .error e (Operands.unread token t) := by
  show EStateM.bind Operands.next _ s = _
  rw [EStateM.bind, read]
  rfl

theorem lookAhead_of_error (failed : Operands.next s = .error f t) (a : γ) : lookAhead (.ok a s) = .error f t := by
  show EStateM.bind Operands.next _ s = _
  rw [EStateM.bind, failed]

theorem lookAhead_error_of_error (failed : Operands.next s = .error f t) (e : Error) :
    lookAhead (.error e s : EStateM.Result Error σ γ) = .error f t := by
  show EStateM.bind Operands.next _ s = _
  rw [EStateM.bind, failed]

variable [Arithmetic α]

/-- An operator of the tightest stratum refused its operands. -/
inductive Refused (α : Type) [Arithmetic α] : EStateM.Result Error σ γ → Prop where
  | intro {op : Operator} {left right : α} {cause : Cause} (tightest : op ∈ [Operator.mul, .div, .mod])
    (refused : Arithmetic.binary op left right = .error cause) (pos : Position) (s : σ) :
    Refused α (.error (.at_ cause pos) s)

/-- A result of the grammar, or what looking ahead makes of one that an operator of the tightest stratum refused. -/
inductive Meets : EStateM.Result Error σ γ → EStateM.Result Error σ γ → Prop where
  | same (r : EStateM.Result Error σ γ) : Meets r r
  | ahead {r : EStateM.Result Error σ γ} (refused : Refused α r) : Meets r (lookAhead r)

theorem Meets.eq_of_ok {a : γ} {r : EStateM.Result Error σ γ} (h : Meets (.ok a s) r) : r = .ok a s := by
  cases h with
  | same => rfl
  | ahead refused => cases refused

/-- An error stays an error. -/
theorem Meets.exists_error {e : Error} {r : EStateM.Result Error σ γ} (h : Meets (.error e s) r) :
    ∃ e' t, r = .error e' t ∧ ∀ {δ : Type}, Meets (.error e s : EStateM.Result Error σ δ) (.error e' t) := by
  cases h with
  | same => exact ⟨e, s, rfl, .same _⟩
  | ahead refused =>
    cases refused with
    | intro tightest refused pos s =>
      cases read : (Operands.next s : EStateM.Result Error σ Token) with
      | ok token t =>
        refine ⟨_, _, lookAhead_error_of_next read _, fun {δ} => ?_⟩
        rw [← lookAhead_error_of_next (γ := δ) read]
        exact .ahead (.intro tightest refused pos s)
      | error f t =>
        refine ⟨_, _, lookAhead_error_of_error read _, fun {δ} => ?_⟩
        rw [← lookAhead_error_of_error (γ := δ) read]
        exact .ahead (.intro tightest refused pos s)

end LookAhead

/-! ### Surroundings that read a token stream -/

/-- Surroundings whose tokens are those of a token stream, whatever names and the location mean. -/
structure Streams (σ : Type) {α : Type} [Operands σ α] where
  tokens : σ → TokenStream
  next {s t : σ} {token : Token} (h : Operands.next s = .ok token t) : (tokens s).next = (.ok token, tokens t)
  failed {s t : σ} {e : Error} (h : Operands.next s = .error e t) : (tokens s).next = (.error e, tokens t)
  unread (token : Token) (s : σ) : tokens (Operands.unread token s) = (tokens s).unread token
  /-- A token that is put back is read again. -/
  again {s t : σ} {token : Token} (h : Operands.next s = .ok token t) :
    Operands.next (Operands.unread token t) = .ok token t
  resolve {s t : σ} {name : String} {pos : Position} {a : α} (h : Operands.resolve name pos s = .ok a t) :
    tokens t = tokens s
  budget (s : σ) : Operands.budget s = (tokens s).budget

namespace Streams

variable {σ α : Type} [Operands σ α] (st : Streams σ) {s t u : σ} {token : Token}

/-- A bound on the tokens in front of the end of the file. -/
def left (s : σ) : Nat := (st.tokens s).weigh fun _ => 1

/-- A state of reading later. -/
structure Within (s t : σ) : Prop where
  fits : (st.tokens t).Fits
  left : st.left t ≤ st.left s

variable {st}

theorem Within.trans (h : st.Within s t) (h' : st.Within t u) : st.Within s u := ⟨h'.fits, Nat.le_trans h'.left h.left⟩

theorem left_next (read : Operands.next s = .ok token t) : st.left t + token.weight ≤ st.left s :=
  TokenStream.weigh_next (fun _ => Nat.le_refl 1) (st.next read)

theorem within_next (fits : (st.tokens s).Fits) (read : Operands.next s = .ok token t) : st.Within s t :=
  ⟨fits.next (st.next read), Nat.le_trans (Nat.le_add_right _ _) (left_next read)⟩

theorem within_unread (fits : (st.tokens s).Fits) (read : Operands.next s = .ok token t) :
    st.Within s (Operands.unread token t) := by
  refine ⟨?_, ?_⟩
  · rw [st.unread]
    exact (fits.next (st.next read)).unread token
  · rw [left, st.unread, TokenStream.weigh_unread (TokenStream.ahead_of_next (st.next read))]
    exact left_next read

theorem within_resolve {name : String} {pos : Position} {a : α} (fits : (st.tokens s).Fits)
    (found : Operands.resolve name pos s = .ok a t) : st.Within s t := by
  have same := st.resolve found
  exact ⟨same ▸ fits, Nat.le_of_eq (by rw [left, left, same])⟩

end Streams

/-! ### Climbing -/

section Climbing

variable {σ α : Type} [Arithmetic α] [Operands σ α] {n : Nat}

theorem unary_succ :
    (Expression.unary (n + 1) : EStateM Error σ α) = signedBy (Expression.unary n) (Expression.primary n) := by
  rw [Expression.unary]
  refine congrArg (Operands.next >>= ·) (funext fun token => ?_)
  obtain ⟨lexeme, pos⟩ := token
  cases lexeme with
  | punct p => cases p <;> rfl
  | _ => rfl

theorem primary_succ : (Expression.primary (n + 1) : EStateM Error σ α) = primaryBy (Expression.climb 1 n) := by
  rw [Expression.primary]
  refine congrArg (Operands.next >>= ·) (funext fun token => ?_)
  obtain ⟨lexeme, pos⟩ := token
  cases lexeme with
  | punct p => cases p <;> rfl
  | _ => rfl

variable {least : Nat} {left : α} {s t : σ} {token : Token}

theorem climbFrom_unreadable {e : Error} (failed : Operands.next s = .error e t) :
    Expression.climbFrom left least (n + 1) s = .error e t := by
  rw [Expression.climbFrom]
  show EStateM.bind Operands.next _ s = _
  rw [EStateM.bind, failed]

/-- Climbing stops in front of a token that binds less tightly, and puts it back. -/
theorem climbFrom_stop (read : Operands.next s = .ok token t) (stops : Stops least token) :
    Expression.climbFrom left least (n + 1) s = .ok left (Operands.unread token t) := by
  rw [Expression.climbFrom]
  show EStateM.bind Operands.next _ s = _
  rw [EStateM.bind, read]
  cases found : Expression.operator? token.lexeme with
  | none =>
    dsimp only
    rw [found]
    rfl
  | some mark =>
    dsimp only
    rw [found]
    dsimp only
    rw [if_neg (Nat.not_le_of_lt (stops mark.1 mark.2 found))]
    rfl

theorem climbFrom_operator {op : Operator} {precedence : Nat} (read : Operands.next s = .ok token t)
    (found : Expression.operator? token.lexeme = some (op, precedence)) (tight : least ≤ precedence) :
    Expression.climbFrom left least (n + 1) s = (do
      let right ← Expression.climb (precedence + 1) n
      let value ← Expression.lift token.pos (Arithmetic.binary op left right)
      Expression.climbFrom value least n : EStateM Error σ α) t := by
  rw [Expression.climbFrom]
  show EStateM.bind Operands.next _ s = _
  rw [EStateM.bind, read]
  dsimp only
  rw [found]
  dsimp only
  rw [if_pos tight]

end Climbing

section Agreement

variable {σ α γ δ : Type} [Arithmetic α] [Operands σ α] (st : Streams σ) {n : Nat} {s t u : σ}

/-- The grammar and a reading of the same phrase, within what was left in `u`. -/
structure Agrees (u : σ) (x : (Phrase α → EStateM Error σ α) → EStateM Error σ γ) (y : EStateM Error σ γ) (s : σ) :
    Prop where
  meets : ∃ r, Ends rules (fun f => x f s) r ∧ Meets r (y s)
  within {a : γ} {t : σ} (h : y s = .ok a t) : st.Within u t

variable {st} {x : (Phrase α → EStateM Error σ α) → EStateM Error σ γ} {y : EStateM Error σ γ}
  {g : (Phrase α → EStateM Error σ α) → γ → EStateM Error σ δ} {h : γ → EStateM Error σ δ}

/-- What both do alike. -/
theorem Agrees.same (within : ∀ {a t}, y s = .ok a t → st.Within u t) : Agrees st u (fun _ => y) y s :=
  ⟨⟨y s, .const _, .same _⟩, within⟩

theorem Agrees.after (later : st.Within u s) (agrees : Agrees st s x y s) : Agrees st u x y s :=
  ⟨agrees.meets, fun run => later.trans (agrees.within run)⟩

/-- A call of the grammar. -/
theorem Agrees.call {p : Phrase α} {y : EStateM Error σ α} (h : Agrees st u (fun f => rules f p) y s) :
    Agrees st u (fun f => f p) y s := by
  obtain ⟨r, ends, meets⟩ := h.meets
  exact ⟨⟨r, .call ends, meets⟩, h.within⟩

/-- What agrees one after the other agrees as a whole. -/
theorem Agrees.bind (first : Agrees st u x y s)
    (rest : ∀ {a t}, st.Within u t → Agrees st u (fun f => g f a) (h a) t) :
    Agrees st u (fun f => x f >>= g f) (y >>= h) s := by
  obtain ⟨⟨r, ends, meets⟩, within⟩ := first
  cases r with
  | ok a t =>
    have run := meets.eq_of_ok
    have same : (y >>= h) s = h a t := by
      show EStateM.bind y h s = _
      rw [EStateM.bind, run]
    obtain ⟨⟨r, ends', meets⟩, within'⟩ := rest (a := a) (within run)
    refine ⟨⟨r, .bind ends ends', same ▸ meets⟩, fun {b u} last => ?_⟩
    rw [same] at last
    exact within' last
  | error e t =>
    obtain ⟨e', u, run, fails⟩ := meets.exists_error
    have same : (y >>= h) s = .error e' u := by
      show EStateM.bind y h s = _
      rw [EStateM.bind, run]
    refine ⟨⟨.error e t, .bind_error ends, same ▸ fails⟩, fun last => ?_⟩
    rw [same] at last
    cases last

/-- Both read the same token first, and agree after it. -/
theorem Agrees.next {g : (Phrase α → EStateM Error σ α) → Token → EStateM Error σ γ} {h : Token → EStateM Error σ γ}
    (rest : ∀ {token t}, Operands.next s = .ok token t → Agrees st u (fun f => g f token) (h token) t) :
    Agrees st u (fun f => Operands.next >>= g f) (Operands.next >>= h) s := by
  cases read : (Operands.next s : EStateM.Result Error σ Token) with
  | ok token t =>
    have same (k : Token → EStateM Error σ γ) : (Operands.next >>= k) s = k token t := by
      show EStateM.bind Operands.next k s = _
      rw [EStateM.bind, read]
    obtain ⟨⟨r, ends, meets⟩, within⟩ := rest read
    refine ⟨⟨r, ends_next read ends, ?_⟩, fun last => ?_⟩
    · rw [same]
      exact meets
    · rw [same] at last
      exact within last
  | error e t =>
    have same (k : Token → EStateM Error σ γ) : (Operands.next >>= k) s = .error e t := by
      show EStateM.bind Operands.next k s = _
      rw [EStateM.bind, read]
    refine ⟨⟨_, ends_next_error read, ?_⟩, fun last => ?_⟩
    · rw [same]
      exact .same _
    · rw [same] at last
      cases last

theorem Agrees.unread {token : Token} (rest : Agrees st u x y (Operands.unread token s)) :
    Agrees st u (fun f => Expression.unread token >>= fun _ => x f) (Expression.unread token >>= fun _ => y) s :=
  ⟨rest.meets, rest.within⟩

theorem Agrees.lift (pos : Position) (a : Except Cause α) (later : st.Within u s) :
    Agrees st u (fun _ => Expression.lift pos a) (Expression.lift pos a) s := by
  refine .same fun run => ?_
  cases a with
  | ok a =>
    cases run
    exact later
  | error cause => cases run

theorem Agrees.pure (a : γ) (later : st.Within u s) : Agrees st u (fun _ => Pure.pure a) (Pure.pure a) s := by
  refine .same fun run => ?_
  cases run
  exact later

/-- A sign that only tells errors their place. -/
theorem Agrees.locating (pos : Position) {x : (Phrase α → EStateM Error σ α) → EStateM Error σ α}
    {y : EStateM Error σ α} (h : Agrees st u x y s) :
    Agrees st u (fun f => Expression.locating pos (x f)) (Expression.locating pos y) s := by
  obtain ⟨⟨r, ends, meets⟩, within⟩ := h
  have located {x : EStateM Error σ α} {r : EStateM.Result Error σ α} (run : x s = r) :
      Expression.locating pos x s = Expression.locating pos (fun _ => r) s := by
    unfold Expression.locating
    rw [run]
  have ends' : Ends rules (fun f => Expression.locating pos (x f) s) (Expression.locating pos (fun _ => r) s) := by
    obtain ⟨n, ends⟩ := ends
    exact ⟨n, fun out => located (ends out)⟩
  refine ⟨⟨_, ends', ?_⟩, fun {a t} run => ?_⟩
  · rw [located rfl]
    generalize y s = c at meets
    cases meets with
    | same => exact .same _
    | ahead refused =>
      cases refused with
      | @intro op left right cause tightest refused place v =>
        -- neither the refusal nor an unreadable token behind it lacks a place
        have kept : Expression.locating pos (fun _ => lookAhead (.error (.at_ cause place) v)) s
            = (lookAhead (.error (.at_ cause place) v) : EStateM.Result Error σ α) := by
          cases read : (Operands.next v : EStateM.Result Error σ Token) with
          | ok token t =>
            rw [lookAhead_error_of_next read]
            rfl
          | error f t =>
            rw [lookAhead_error_of_error read]
            exact congrArg (EStateM.Result.error · t) (TokenStream.located_of_next (st.failed read) pos)
        rw [kept]
        exact .ahead (.intro tightest refused place v)
  · unfold Expression.locating at run
    split at run
    · rename_i b v run'
      cases run
      exact within run'
    · cases run

theorem Agrees.expect (p : Punct) (later : st.Within u s) :
    Agrees st u (fun _ => Expression.expect p) (Expression.expect p) s := by
  refine .next fun {token t} read => ?_
  split
  · exact .pure () (later.trans (Streams.within_next later.fits read))
  · exact .same fun run => by cases run

variable {signed primary whole : (Phrase α → EStateM Error σ α) → EStateM Error σ α}
  {signed' primary' whole' : EStateM Error σ α}

/-- Signs agree if what follows them does: less is left behind a sign, and a primary reads what the signs leave. -/
theorem Agrees.signedBy (fits : (st.tokens s).Fits)
    (hs : ∀ {t}, (st.tokens t).Fits → st.left t + 1 ≤ st.left s → Agrees st t signed signed' t)
    (hp : ∀ {t}, st.Within s t → Agrees st t primary primary' t) :
    Agrees st s (fun f => Grammar.signedBy (signed f) (primary f)) (Grammar.signedBy signed' primary') s := by
  refine .next fun {token t} read => ?_
  have later := Streams.within_next fits read
  have operand (mark : token.lexeme ≠ .endOfFile) : Agrees st s signed signed' t :=
    .after later (hs later.fits (Token.weight_eq_one mark ▸ Streams.left_next read))
  split
  · rename_i plus
    refine .locating token.pos (operand fun last => ?_)
    rw [Token.isPunct, last] at plus
    cases plus
  · cases found : (sign? token.lexeme : Option (α → Except Cause α)) with
    | some sign =>
      refine .bind (operand fun last => ?_) fun later => .lift token.pos _ later
      rw [last] at found
      cases found
    | none =>
      have back := Streams.within_unread fits read
      exact .unread (.after back (hp back))

/-- Primaries agree if whole expressions do in what is left behind an opening mark. -/
theorem Agrees.primaryBy (fits : (st.tokens s).Fits)
    (hw : ∀ {t}, (st.tokens t).Fits → st.left t + 1 ≤ st.left s → Agrees st t whole whole' t) :
    Agrees st s (fun f => Grammar.primaryBy (whole f)) (Grammar.primaryBy whole') s := by
  refine .next fun {token t} read => ?_
  have later := Streams.within_next fits read
  split
  · exact .pure _ later
  · exact .same fun found => later.trans (Streams.within_resolve later.fits found)
  · rename_i close found _ _
    have mark : token.lexeme ≠ .endOfFile := fun last => by
      rw [last] at found
      cases found
    refine .bind (.after later (hw later.fits (Token.weight_eq_one mark ▸ Streams.left_next read))) fun later => ?_
    exact .bind (.expect close later) fun later => .pure _ later
  · split
    · exact .same fun run => by cases run; exact later
    · exact .same fun run => by cases run

end Agreement

section Levels

variable {σ α : Type} [Arithmetic α] [Operands σ α] (st : Streams σ) {n k : Nat} {s t u : σ}

/-- The next token has been looked at and is no operator of the strata from `k` on. -/
def Stopped (k : Nat) (s : σ) : Prop :=
  ∃ token t, Operands.next s = .ok token t ∧ s = Operands.unread token t ∧ Stops (k + 1) token

/-- How climbing meets the result of the grammar: without strata it looks one token further. -/
inductive Reaches (levels : List Stratum) : EStateM.Result Error σ α → EStateM.Result Error σ α → Prop where
  | error {e : Error} {s : σ} {c : EStateM.Result Error σ α} (h : Meets (.error e s) c) : Reaches levels (.error e s) c
  | value (a : α) (s : σ) (some : levels ≠ []) : Reaches levels (.ok a s) (.ok a s)
  | ahead (a : α) (s : σ) (none : levels = []) : Reaches levels (.ok a s) (lookAhead (.ok a s))

/-- A result of climbing that started in `s`, where the grammar gives what `R` says. -/
structure Climbs (k : Nat) (s : σ) (R : EStateM.Result Error σ α → Prop) (c : EStateM.Result Error σ α) : Prop where
  reaches : ∃ r, R r ∧ Reaches (strata.drop k) r c
  stopped {a : α} {t : σ} (h : c = .ok a t) : Stopped k t
  within {a : α} {t : σ} (h : c = .ok a t) : st.Within s t

/-- The four readers of one depth, where it is enough. -/
structure AgreesAt (n : Nat) : Prop where
  climb {k : Nat} {s : σ} (fits : (st.tokens s).Fits) (room : 3 * st.left s + 3 ≤ n) :
    Climbs st k s (Evaluates (.level (strata.drop k)) s) (Expression.climb (k + 1) n s)
  climbFrom {k : Nat} {s : σ} (left : α) (fits : (st.tokens s).Fits) (room : 3 * st.left s + 1 ≤ n) :
    Climbs st k s (Tails left s (strata.drop k)) (Expression.climbFrom left (k + 1) n s)
  unary {s : σ} (fits : (st.tokens s).Fits) (room : 3 * st.left s + 2 ≤ n) :
    Agrees st s (fun f => f .signed) (Expression.unary n) s
  primary {s : σ} (fits : (st.tokens s).Fits) (room : 3 * st.left s + 1 ≤ n) :
    Agrees st s (fun f => f .primary) (Expression.primary n) s

variable {st}

/-- With a stratum or more, climbing gives what the grammar does. -/
theorem Climbs.agrees (some : strata.drop k ≠ []) {y : EStateM Error σ α}
    (h : Climbs st k s (Evaluates (.level (strata.drop k)) s) (y s)) :
    Agrees st s (fun f => f (.level (strata.drop k))) y s := by
  obtain ⟨⟨r, ends, reaches⟩, -, within⟩ := h
  refine ⟨⟨r, ends, ?_⟩, within⟩
  generalize y s = c at reaches
  cases reaches with
  | error meets => exact meets
  | value => exact .same _
  | ahead a s none => exact (some none).elim

/-- A failed reading climbs no further. -/
theorem Climbs.failed {R : EStateM.Result Error σ α → Prop} {e e' : Error} (result : R (.error e t))
    (meets : Meets (.error e t : EStateM.Result Error σ α) (.error e' u)) : Climbs st k s R (.error e' u) where
  reaches := ⟨_, result, .error meets⟩
  stopped h := by cases h
  within h := by cases h

namespace AgreesAt

variable (ih : AgreesAt st (α := α) n)

include ih

/-- Climbing with enough room gives what the grammar gives from the stratum on: an operand, and what follows it. -/
theorem climb_succ (fits : (st.tokens s).Fits) (room : 3 * st.left s + 3 ≤ n + 1) :
    Climbs st k s (Evaluates (.level (strata.drop k)) s)
      (Expression.climb (k + 1) (n + 1) s : EStateM.Result Error σ α) := by
  obtain ⟨⟨r, ends, meets⟩, within⟩ := ih.unary fits (by omega)
  rw [Expression.climb]
  show Climbs st k s _ (EStateM.bind (Expression.unary n) _ s)
  cases r with
  | ok a t =>
    have run := meets.eq_of_ok
    have later := within run
    have shorter := later.left
    rw [EStateM.bind, run]
    obtain ⟨⟨r, tails, reaches⟩, stopped, within⟩ := ih.climbFrom (k := k) a later.fits (by omega)
    exact ⟨⟨r, tails.level ends, reaches⟩, stopped, fun h => later.trans (within h)⟩
  | error e t =>
    obtain ⟨e', u, run, fails⟩ := meets.exists_error
    rw [EStateM.bind, run]
    exact .failed (level_error ends _) fails

/-- Behind an operator and its right operand. The grammar has read the operand up to `u`, and climbing has looked at the
token there. -/
theorem combine {left right : α} {looser : List Stratum} {ops : Stratum} {op : Operator} {token : Token} {j : Nat} {v : σ}
    (split : strata.drop k = looser ++ ops :: strata.drop j)
    (tightest : strata.drop j = [] → op ∈ [Operator.mul, .div, .mod])
    (idle : Tails left s (strata.drop j) (.ok left v)) (read : Operands.next v = .ok token t)
    (found : ops.operator? token.lexeme = some op) (operand : Evaluates (.level (strata.drop j)) t (.ok right u))
    (later : st.Within s t) (shorter : 3 * st.left t + 1 ≤ n) (last : strata.drop j = [] ∨ Stopped j u)
    {y : EStateM Error σ α} (run : y t = lookAhead (.ok right u))
    (stopped : ∀ {a w}, y t = .ok a w → Stopped j w ∧ st.Within t w) :
    Climbs st k s (Tails left s (strata.drop k)) ((do
      let right ← y
      let value ← Expression.lift token.pos (Arithmetic.binary op left right)
      Expression.climbFrom value (k + 1) n : EStateM Error σ α) t) := by
  have failed {e : Error} {w : σ} (tail : Evaluates (.tail ops (strata.drop j) left) v (.error e w)) :
      Tails left s (strata.drop k) (.error e w) := by
    rw [split]
    exact .append_error (.cons idle tail)
  show Climbs st k s _ (EStateM.bind y _ t)
  cases ahead : (Operands.next u : EStateM.Result Error σ Token) with
  | error f w =>
    rw [lookAhead_of_error ahead] at run
    rw [EStateM.bind, run]
    cases combined : Arithmetic.binary op left right with
    | error cause =>
      have none : strata.drop j = [] := by
        refine last.resolve_right ?_
        rintro ⟨token, x, reads, -⟩
        cases reads.symm.trans ahead
      refine .failed (failed (tail_refused read found operand combined)) ?_
      rw [← lookAhead_error_of_error (γ := α) ahead]
      exact .ahead (.intro (tightest none) combined _ _)
    | ok value => exact .failed (failed (tail_more read found operand combined (tail_unreadable ahead))) (.same _)
  | ok after w =>
    rw [lookAhead_of_next ahead] at run
    have again := st.again ahead
    rw [EStateM.bind, run]
    dsimp only
    cases combined : Arithmetic.binary op left right with
    | error cause =>
      show Climbs st k s _ (.error (.at_ cause token.pos) _)
      refine .failed (failed (tail_refused read found operand combined)) ?_
      obtain none | ⟨token, x, reads, same, -⟩ := last
      · rw [← lookAhead_error_of_next (γ := α) ahead]
        exact .ahead (.intro (tightest none) combined _ _)
      · cases reads.symm.trans ahead
        rw [← same]
        exact .same _
    | ok value =>
      show Climbs st k s _ (Expression.climbFrom value (k + 1) n _)
      obtain ⟨⟨token, x, reads, -, stops⟩, reached⟩ := stopped run
      cases again.symm.trans reads
      have shorter' := reached.left
      obtain ⟨⟨r, tails, reaches⟩, stopped, within⟩ := ih.climbFrom (k := k) value reached.fits (by omega)
      refine ⟨⟨r, ?_, reaches⟩, stopped, fun h => (later.trans reached).trans (within h)⟩
      rw [split] at tails ⊢
      -- nothing tighter follows the combined value either
      refine tails.append_congr fun r tails => ?_
      cases tails with
      | error h => cases h.eq_of_again again stops.operator?
      | cons h more =>
        cases h.eq_of_again again stops.operator?
        exact .cons idle (tail_more read found operand combined (more.tail_congr (again.trans ahead.symm)))

/-- What follows an operand: the next token either ends the climbing, or it is an operator of one of the strata, whose
right operand is climbed to first. -/
theorem climbFrom_succ (left : α) (fits : (st.tokens s).Fits) (room : 3 * st.left s + 1 ≤ n + 1) :
    Climbs st k s (Tails left s (strata.drop k)) (Expression.climbFrom left (k + 1) (n + 1) s) := by
  cases read : (Operands.next s : EStateM.Result Error σ Token) with
  | error e t =>
    rw [climbFrom_unreadable read]
    by_cases none : strata.drop k = []
    · refine ⟨⟨.ok left s, none ▸ .nil, ?_⟩, fun h => ?_, fun h => ?_⟩
      · rw [← lookAhead_of_error read left]
        exact .ahead left s none
      · cases h
      · cases h
    · exact .failed (tails_unreadable none read) (.same _)
  | ok token t =>
    have again := st.again read
    have back := Streams.within_unread fits read
    by_cases stops : Stops (k + 1) token
    · rw [climbFrom_stop read stops]
      refine ⟨?_, fun h => ?_, fun h => ?_⟩
      · by_cases none : strata.drop k = []
        · refine ⟨.ok left s, none ▸ .nil, ?_⟩
          rw [← lookAhead_of_next read left]
          exact .ahead left s none
        · obtain ⟨u, tails, -, all⟩ := exists_tails_of_next left read again stops.operator?
          obtain rfl := all none
          exact ⟨_, tails, .value _ _ none⟩
      · cases h
        exact ⟨token, t, again, rfl, stops⟩
      · cases h
        exact back
    · simp only [Stops, not_forall, Nat.not_lt] at stops
      obtain ⟨op, precedence, found, tight⟩ := stops
      obtain ⟨j, ops, rfl, stratum, mark, tightest⟩ := exists_stratum found
      rw [climbFrom_operator read found tight]
      obtain ⟨looser, split⟩ := drop_eq_append (Nat.le_of_succ_le_succ tight) stratum
      have looseHere : Stops (j + 1 + 1) token := by
        intro op' precedence same
        cases found.symm.trans same
        exact Nat.lt_succ_self _
      obtain ⟨v, idle, read', -⟩ := exists_tails_of_next left read again looseHere.operator?
      have later := Streams.within_next fits read
      have shorter : st.left t + token.weight ≤ st.left s := Streams.left_next read
      rw [Token.weight_eq_one fun last => by rw [last] at found; cases found] at shorter
      have climbs := ih.climb (k := j + 1) later.fits (by omega)
      have reached {a : α} {w : σ} (h : Expression.climb (j + 1 + 1) n t = .ok a w) : Stopped (j + 1) w ∧ st.Within t w :=
        ⟨climbs.stopped h, climbs.within h⟩
      obtain ⟨r, operand, reaches⟩ := climbs.reaches
      generalize run : (Expression.climb (j + 1 + 1) n t : EStateM.Result Error σ α) = c at climbs reaches
      cases reaches with
      | error meets =>
        obtain ⟨e', u, rfl, fails⟩ := meets.exists_error
        show Climbs st k s _ (EStateM.bind (Expression.climb (j + 1 + 1) n) _ t)
        rw [EStateM.bind, run]
        refine .failed ?_ fails
        rw [split]
        exact .append_error (.cons idle (tail_operand_error read' mark operand))
      | value a u some =>
        have stopped := climbs.stopped rfl
        obtain ⟨after, w, reads, same, -⟩ := id stopped
        refine ih.combine split tightest idle read' mark operand later (by omega) (.inr stopped) ?_ reached
        rw [run, lookAhead_of_next reads, ← same]
      | ahead a u none => exact ih.combine split tightest idle read' mark operand later (by omega) (.inl none) run reached

theorem unary_succ (fits : (st.tokens s).Fits) (room : 3 * st.left s + 2 ≤ n + 1) :
    Agrees st s (fun f => f .signed) (Expression.unary (n + 1) : EStateM Error σ α) s := by
  rw [Grammar.unary_succ]
  exact .call (.signedBy fits (fun fits shorter => ih.unary fits (by omega)) fun later =>
    have shorter := later.left
    ih.primary later.fits (by omega))

theorem primary_succ (fits : (st.tokens s).Fits) (room : 3 * st.left s + 1 ≤ n + 1) :
    Agrees st s (fun f => f .primary) (Expression.primary (n + 1) : EStateM Error σ α) s := by
  rw [Grammar.primary_succ]
  have some : strata.drop 0 ≠ [] := List.cons_ne_nil _ _
  exact .call (.primaryBy fits fun fits shorter => (ih.climb (k := 0) fits (by omega)).agrees some)

end AgreesAt

theorem agreesAt (n : Nat) : AgreesAt st (α := α) n := by
  induction n with
  | zero =>
    refine ⟨fun _ room => ?_, fun _ _ room => ?_, fun _ room => ?_, fun _ room => ?_⟩
    all_goals omega
  | succ n ih => exact ⟨ih.climb_succ, ih.climbFrom_succ, ih.unary_succ, ih.primary_succ⟩

end Levels

/-! ### Scopes and the assembler -/

/-- A scope reads its own tokens. -/
def scopeStreams (α : Type) : Streams (Scope α) where
  tokens := Scope.tokens
  next h := (Scope.next_of_nextToken h).1
  failed h := (Scope.next_of_nextToken_error h).1
  unread _ _ := rfl
  again {s t token} h := by
    obtain ⟨read, same⟩ := Scope.next_of_nextToken h
    have again : (t.tokens.unread token).next = (.ok token, t.tokens) := TokenStream.next_unread_of_next read
    exact Scope.nextToken_of_next (s := { t with tokens := t.tokens.unread token }) again
  resolve h := by cases h; rfl
  budget _ := rfl

/-- So does the assembler; what names mean, it finds in its table. -/
def assemblerStreams : Streams Assembler where
  tokens := Assembler.tokens
  next h := (Assembler.next_of_nextToken h).1
  failed h := (Assembler.next_of_nextToken_error h).1
  unread _ _ := rfl
  again {s t token} h := by
    obtain ⟨read, same⟩ := Assembler.next_of_nextToken h
    have again : (t.tokens.unread token).next = (.ok token, t.tokens) := TokenStream.next_unread_of_next read
    refine (Assembler.nextToken_of_next (s := Asm.putBack token t) again).trans ?_
    rw [same]
    rfl
  resolve {s t name pos a} h := by
    change Asm.resolve name pos s = _ at h
    rw [Assembler.resolve_eq] at h
    split at h
    · rename_i id u interned
      cases h
      obtain ⟨identifiers, rfl⟩ := Assembler.eq_of_intern interned
      rw [Assembler.lookUp_eq]
    · cases h
  budget _ := rfl

/-! ### Both readings -/

/-- Climbing gives what the grammar gives: the same value or error, in the same state of the surroundings. Only if an
operator of the tightest stratum refuses its operands has climbing looked at the token behind them, which stays to be
read, or is reported instead if it cannot be read. -/
theorem read_eq_or_lookAhead {σ α : Type} [Arithmetic α] [Operands σ α] (st : Streams σ) {s : σ}
    (fits : (st.tokens s).Fits) :
    ∃ r : EStateM.Result Error σ α, (∀ r', Evaluates (.level strata) s r' ↔ r' = r)
      ∧ (Expression.read s = r ∨ (Refused α r ∧ Expression.read s = lookAhead r)) := by
  have enough : 3 * st.left s + 3 ≤ Expression.depthFor (Operands.budget s) := by
    have short : st.left s < (st.tokens s).budget := fits.weigh_lt_budget
    rw [Expression.depthFor, st.budget]
    omega
  have some : strata.drop 0 ≠ [] := List.cons_ne_nil _ _
  obtain ⟨r, ends, meets⟩ := (((agreesAt _).climb fits enough).agrees some).meets
  refine ⟨r, fun r' => ⟨fun h => h.unique ends, fun same => same ▸ ends⟩, ?_⟩
  change Meets r (Expression.read s) at meets
  generalize Expression.read s = c at meets
  cases meets with
  | same => exact .inl rfl
  | ahead refused => exact .inr ⟨refused, rfl⟩

/-- A sum of products by the grammar: each `+` has products on both sides. -/
theorem read_sum_of_products :
    let s : Scope Address := ⟨{ top := .ofText 0 "1 + 2 * x - 3, y" }, fun _ => .constant 40, .constant 0⟩
    ∃ t, Evaluates (.level strata) s (.ok (.constant 78) t) ∧ Expression.read s = .ok (.constant 78) t := by
  intro s
  have evaluates : (match Expression.read s with
      | .ok a _ => decide (a = .constant 78)
      | .error _ _ => false) = true := by decide +kernel
  split at evaluates
  · rename_i a t run
    obtain rfl := of_decide_eq_true evaluates
    obtain ⟨r, unique, result⟩ := read_eq_or_lookAhead (scopeStreams Address) (s := s) (TokenStream.fits_ofText 0 _)
    have same : r = .ok (.constant 78) t := by
      obtain same | ⟨refused, looked⟩ := result
      · exact same.symm.trans run
      · cases refused with
        | intro tightest refused pos u =>
          obtain ⟨e, v, failed, -⟩ := (Meets.ahead (γ := Address) (.intro tightest refused pos u)).exists_error
          cases (run.symm.trans looked).trans failed
    exact ⟨t, (unique _).2 same.symm, run⟩
  · cases evaluates

section Division

variable {σ α : Type} [Arithmetic α] [Operands σ α] (st : Streams σ) {s t u v : σ} {pos : Position}

include st

theorem signed_number {n : Nat} (read : Operands.next s = .ok ⟨.number n, pos⟩ t) :
    Evaluates .signed s (.ok (Arithmetic.constant (.ofNat n)) t : EStateM.Result Error σ α) :=
  .call (ends_next read (.call (ends_next (st.again read) (.const _))))

/-- A division of two numbers that is refused. -/
theorem division_refused {m n : Nat} {place place' : Position} {cause : Cause}
    (first : Operands.next s = .ok ⟨.number m, place⟩ t) (mark : Operands.next t = .ok ⟨.punct .slash, pos⟩ u)
    (second : Operands.next u = .ok ⟨.number n, place'⟩ v)
    (refused :
      Arithmetic.binary .div (Arithmetic.constant (.ofNat m) : α) (Arithmetic.constant (.ofNat n)) = .error cause) :
    Evaluates (.level strata) s (.error (.at_ cause pos) v : EStateM.Result Error σ α) := by
  refine Tails.level (signed_number st first) ?_
  have tail : Evaluates (.tail [(.star, .mul), (.slash, .div), (.percent, .mod)] [] (Arithmetic.constant (.ofNat m))) t
      (.error (.at_ cause pos) v : EStateM.Result Error σ α) :=
    tail_refused mark rfl (.call (signed_number st second)) refused
  have split : strata = strata.take 5 ++ [[(.star, .mul), (.slash, .div), (.percent, .mod)]] := rfl
  rw [split]
  exact .append_error (.cons .nil tail)

end Division

/-- In `1/0 @` the grammar finds a division by zero, and climbing a character that starts nothing. -/
theorem read_unreadable_behind_division :
    let s : Scope Address := ⟨{ top := .ofText 0 "1/0 @" }, fun _ => .undefined, .constant 0⟩
    (∃ t u, Evaluates (.level strata) s (.error (.at_ .divisionByZero ⟨0, 1, 2⟩) t)
      ∧ Expression.read s = .error (.at_ (.unexpectedCharacter '@') ⟨0, 1, 5⟩) u)
      ∧ ¬ Evaluates (.level strata) s (Expression.read s) := by
  intro s
  have yields : s.tokens.Yields
      [⟨.number 1, ⟨0, 1, 1⟩⟩, ⟨.punct .slash, ⟨0, 1, 2⟩⟩, ⟨.number 0, ⟨0, 1, 3⟩⟩] := by decide +kernel
  obtain ⟨t, first, yields⟩ := yields.next
  obtain ⟨u, mark, yields⟩ := yields.next
  obtain ⟨v, second, -⟩ := yields.next
  have division := division_refused (scopeStreams Address) (Scope.nextToken_of_next first)
    (Scope.nextToken_of_next (s := { s with tokens := t }) mark)
    (Scope.nextToken_of_next (s := { s with tokens := u }) second) rfl
  have evaluates : (match Expression.read s with
      | .ok _ _ => false
      | .error e _ => decide (e = .at_ (.unexpectedCharacter '@') ⟨0, 1, 5⟩)) = true := by decide +kernel
  split at evaluates
  · cases evaluates
  · rename_i e w run
    obtain rfl := of_decide_eq_true evaluates
    refine ⟨⟨_, w, division, run⟩, fun climbed => ?_⟩
    cases run.symm.trans (climbed.unique division)

end Grammar

end Asm65
