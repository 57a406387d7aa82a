import Asm65.Proofs.ExpressionTree

/-!
# Unknown values in expressions

As long as a name has no value, an undefined address stands in for it. Every operation accepts the stand-in wherever
it accepts some address that the name may get, and then gives an unknown address again. So the first pass refuses no
expression that a later one accepts. A selected byte is the exception: a byte of an unknown address is no whole
address any more, while a byte of a number is a number. It may therefore be selected last only.

That evaluating the tree of an expression succeeds is not yet that reading it does. `read_eq_of_eval` goes from the
tree back to the tokens; `Expression.evaluation` is the other direction.
-/

namespace Asm65
set_option autoImplicit false

namespace Expression

/-! ### From a tree back to its reading -/

section Reading

variable {α : Type} [Arithmetic α] {names : String → α} {here : α} {γ γ' δ δ' : Type}

/-- Reading `y` in the scope of trees leads `x` from the same tokens to the same tokens, and `x` gives every result
that `V` allows for the one of `y`. -/
def Backs (names : String → α) (here : α) (V : γ → δ → Prop) (y : EStateM Error (Scope Tree) γ)
    (x : EStateM Error (Scope α) δ) : Prop :=
  ∀ ⦃s t t' c⦄, (evaluation names here).state s t → y t = .ok c t' →
    ∃ s', (evaluation names here).state s' t' ∧ ∀ d, V c d → x s = .ok d s'

/-- The same of what goes on from a result: where the final result has a value, so has the one it goes on from. -/
def BacksOn (names : String → α) (here : α) (V : γ → δ → Prop) (V' : γ' → δ' → Prop)
    (g : γ → EStateM Error (Scope Tree) γ') (f : δ → EStateM Error (Scope α) δ') : Prop :=
  ∀ ⦃c s t t' c'⦄, (evaluation names here).state s t → g c t = .ok c' t' →
    ∃ s', (evaluation names here).state s' t' ∧ ∀ d', V' c' d' → ∃ d, V c d ∧ f d s = .ok d' s'

/-- The value of a tree. -/
abbrev Value (names : String → α) (here : α) (tree : Tree) (a : α) : Prop := tree.eval names here = .ok a

variable {V : γ → δ → Prop} {V' : γ' → δ' → Prop} {y : EStateM Error (Scope Tree) γ} {x : EStateM Error (Scope α) δ}
  {g : γ → EStateM Error (Scope Tree) γ'} {f : δ → EStateM Error (Scope α) δ'}

theorem Backs.bind (hx : Backs names here V y x) (hf : BacksOn names here V V' g f) :
    Backs names here V' (y >>= g) (x >>= f) := by
  intro s t t' c' same run
  obtain ⟨c, u, first, run⟩ := exists_of_bind_eq_ok run
  obtain ⟨v, same, reads⟩ := hx same first
  obtain ⟨s', same, goesOn⟩ := hf same run
  refine ⟨s', same, fun d' value => ?_⟩
  obtain ⟨d, operand, last⟩ := goesOn d' value
  show EStateM.bind x f s = _
  rw [EStateM.bind, reads d operand]
  exact last

/-- What goes on from a token or from nothing. -/
theorem BacksOn.same {g : γ → EStateM Error (Scope Tree) γ'} {f : γ → EStateM Error (Scope α) δ'}
    (h : ∀ c, Backs names here V' (g c) (f c)) : BacksOn names here Eq V' g f := by
  intro c s t t' c' same run
  obtain ⟨s', same, reads⟩ := h c same run
  exact ⟨s', same, fun d' value => ⟨c, rfl, reads d' value⟩⟩

/-- A token is read first. -/
theorem BacksOn.after {η : Type} {y : EStateM Error (Scope Tree) η} {x : EStateM Error (Scope α) η}
    {g : γ → η → EStateM Error (Scope Tree) γ'} {f : δ → η → EStateM Error (Scope α) δ'}
    (hx : Backs names here Eq y x) (hf : ∀ e, BacksOn names here V V' (g · e) (f · e)) :
    BacksOn names here V V' (fun c => y >>= g c) (fun d => x >>= f d) := by
  intro c s t t' c' same run
  obtain ⟨e, u, first, run⟩ := exists_of_bind_eq_ok run
  obtain ⟨v, same, reads⟩ := hx same first
  obtain ⟨s', same, goesOn⟩ := hf e same run
  refine ⟨s', same, fun d' value => ?_⟩
  obtain ⟨d, operand, last⟩ := goesOn d' value
  refine ⟨d, operand, ?_⟩
  show EStateM.bind x (f d) s = _
  rw [EStateM.bind, reads e rfl]
  exact last

theorem BacksOn.pure : BacksOn names here V V (fun c => Pure.pure c) (fun d => Pure.pure d) := by
  intro c s t t' c' same run
  cases run
  exact ⟨s, same, fun d value => ⟨d, value, rfl⟩⟩

theorem Backs.pure {c : γ} {d : δ} (h : ∀ d', V c d' → d = d') : Backs names here V (Pure.pure c) (Pure.pure d) := by
  intro s t t' c' same run
  cases run
  refine ⟨s, same, fun d' value => ?_⟩
  rw [h d' value]
  rfl

theorem Backs.refuse (t : Token) (cause : Cause) : Backs names here V (Expression.refuse t cause) x := by
  intro s t t' c' same run
  cases run

theorem Backs.missing {y : EStateM Error (Scope α) α} :
    Backs names here (Value names here) (Expression.missing : EStateM Error (Scope Tree) Tree) y := by
  intro s t t' c' same run
  obtain ⟨token, u, -, refused⟩ := exists_of_bind_eq_ok run
  cases refused

/-- Both read the same token, as a scope of trees has the tokens of the scope of values. -/
theorem Backs.next : Backs names here Eq (Operands.next : EStateM Error (Scope Tree) Token) Operands.next := by
  rintro _ _ t' token ⟨tokens, rfl, rfl⟩ run
  change Scope.nextToken _ = _ at run
  unfold Scope.nextToken at run
  cases found : tokens.next with
  | mk outcome rest =>
    have found' : (Tree.scope tokens).tokens.next = (outcome, rest) := found
    rw [found'] at run
    cases outcome with
    | error e => cases run
    | ok t =>
      cases run
      refine ⟨⟨rest, names, here⟩, ⟨rest, rfl, rfl⟩, ?_⟩
      rintro _ rfl
      show Scope.nextToken _ = _
      rw [Scope.nextToken, found]

theorem Backs.unread (token : Token) :
    Backs names here Eq (Expression.unread token : EStateM Error (Scope Tree) Unit) (Expression.unread token) := by
  rintro _ _ t' c ⟨tokens, rfl, rfl⟩ run
  cases run
  exact ⟨_, ⟨tokens.unread token, rfl, rfl⟩, fun _ _ => rfl⟩

theorem Backs.expect (p : Punct) :
    Backs names here Eq (Expression.expect p : EStateM Error (Scope Tree) Unit) (Expression.expect p) := by
  refine .bind .next (.same fun t => ?_)
  split
  · exact .pure fun _ same => same
  · exact .refuse t _

/-- An operation on one operand. -/
theorem BacksOn.lift (pos : Position) {make : Tree → Tree} {operation : α → Except Cause α}
    (eval : ∀ t : Tree, (make t).eval names here = t.eval names here >>= operation) :
    BacksOn names here (Value names here) (Value names here) (fun t => Expression.lift pos (.ok (make t)))
      (fun a => Expression.lift pos (operation a)) := by
  intro c s t t' c' same run
  cases run
  refine ⟨s, same, fun d' value => ?_⟩
  rw [Value, eval] at value
  obtain ⟨d, operand, result⟩ := exists_of_bind value
  refine ⟨d, operand, ?_⟩
  show Expression.lift pos (operation d) s = _
  rw [result]
  rfl

theorem Backs.locating {pos : Position} {y : EStateM Error (Scope Tree) Tree} {x : EStateM Error (Scope α) α}
    (h : Backs names here (Value names here) y x) :
    Backs names here (Value names here) (Expression.locating pos y) (Expression.locating pos x) := by
  intro s t t' c same run
  unfold Expression.locating at run
  cases read : y t with
  | error e u => rw [read] at run; cases run
  | ok tree u =>
    rw [read] at run
    cases run
    obtain ⟨s', same, reads⟩ := h same read
    refine ⟨s', same, fun d value => ?_⟩
    rw [Expression.locating, reads d value]

/-- All four readers of one depth go from trees back to values. -/
structure BacksAt (names : String → α) (here : α) (n : Nat) : Prop where
  climb (least : Nat) : Backs names here (Value names here) (Expression.climb least n) (Expression.climb least n)
  climbFrom (least : Nat) : BacksOn names here (Value names here) (Value names here)
    (fun left => Expression.climbFrom left least n) (fun left => Expression.climbFrom left least n)
  unary : Backs names here (Value names here) (Expression.unary n) (Expression.unary n)
  primary : Backs names here (Value names here) (Expression.primary n) (Expression.primary n)

namespace BacksAt

variable {n : Nat} (ih : BacksAt names here n)

include ih

theorem climb_succ (least : Nat) :
    Backs names here (Value names here) (Expression.climb least (n + 1)) (Expression.climb least (n + 1)) := by
  rw [Expression.climb, Expression.climb]
  exact .bind ih.unary (ih.climbFrom least)

/-- An operator with its right operand, and what follows. -/
theorem operation (op : Operator) (pos : Position) {precedence : Nat} (least : Nat) :
    BacksOn names here (Value names here) (Value names here)
      (fun left => do
        let right ← Expression.climb precedence n
        let value ← Expression.lift pos (Arithmetic.binary op left right)
        Expression.climbFrom value least n)
      (fun left => do
        let right ← Expression.climb precedence n
        let value ← Expression.lift pos (Arithmetic.binary op left right)
        Expression.climbFrom value least n) := by
  intro left s t t' tree same run
  obtain ⟨right, u, operand, run⟩ := exists_of_bind_eq_ok run
  obtain ⟨v, same, reads⟩ := ih.climb precedence same operand
  obtain ⟨s', same, goesOn⟩ := ih.climbFrom least (c := .binary op left right) same run
  refine ⟨s', same, fun a value => ?_⟩
  obtain ⟨d, combined, last⟩ := goesOn a value
  obtain ⟨l, left, combined⟩ := exists_of_bind combined
  obtain ⟨r, right, combined⟩ := exists_of_bind combined
  refine ⟨l, left, ?_⟩
  show EStateM.bind (Expression.climb precedence n) _ s = _
  rw [EStateM.bind, reads r right]
  show EStateM.bind (Expression.lift pos (Arithmetic.binary op l r)) _ v = _
  rw [combined]
  exact last

theorem climbFrom_succ (least : Nat) : BacksOn names here (Value names here) (Value names here)
    (fun left => Expression.climbFrom left least (n + 1)) (fun left => Expression.climbFrom left least (n + 1)) := by
  simp only [Expression.climbFrom]
  refine .after .next fun token => ?_
  have stop : BacksOn names here (Value names here) (Value names here)
      (fun left => do Expression.unread token; return left) (fun left => do Expression.unread token; return left) :=
    .after (.unread token) fun _ => .pure
  cases operator? token.lexeme with
  | none => exact stop
  | some found =>
    obtain ⟨op, precedence⟩ := found
    dsimp only
    split
    · exact ih.operation op token.pos least
    · exact stop

theorem unary_succ :
    Backs names here (Value names here) (Expression.unary (n + 1)) (Expression.unary (n + 1)) := by
  rw [Expression.unary, Expression.unary]
  refine .bind .next (.same fun token => ?_)
  split
  · exact .bind ih.unary (.lift token.pos fun _ => rfl)
  · exact .bind ih.unary (.lift token.pos fun _ => rfl)
  · exact .bind ih.unary (.lift token.pos fun _ => rfl)
  · exact .bind ih.unary (.lift token.pos fun _ => rfl)
  · exact .locating ih.unary
  · exact .bind (.unread token) (.same fun _ => ih.primary)

/-- A primary has the value of its tree, if the readers one step less deep do. -/
theorem primary_succ :
    Backs names here (Value names here) (Expression.primary (n + 1)) (Expression.primary (n + 1)) := by
  rw [Expression.primary, Expression.primary]
  refine .bind .next (.same fun token => ?_)
  have nested (close : Punct) : Backs names here (Value names here)
      (do let v ← Expression.climb 1 n; Expression.expect close; return v)
      (do let v ← Expression.climb 1 n; Expression.expect close; return v) :=
    .bind (ih.climb 1) (.after (.expect close) fun _ => .pure)
  split
  · exact .pure fun _ value => Except.ok.inj value
  · rintro _ _ t' tree ⟨tokens, rfl, rfl⟩ run
    cases run
    exact ⟨_, ⟨tokens, rfl, rfl⟩, fun a value => by cases value; rfl⟩
  · rintro _ _ t' tree ⟨tokens, rfl, rfl⟩ run
    cases run
    exact ⟨_, ⟨tokens, rfl, rfl⟩, fun a value => by cases value; rfl⟩
  · exact nested .rparen
  · exact nested .rbracket
  · exact .refuse token _

end BacksAt

theorem backsAt (names : String → α) (here : α) (n : Nat) : BacksAt names here n := by
  induction n with
  | zero =>
    refine ⟨fun least => ?_, fun least => ?_, ?_, ?_⟩
    · rw [Expression.climb]; exact .missing
    · simp only [Expression.climbFrom]; exact .pure
    · rw [Expression.unary]; exact .missing
    · rw [Expression.primary]; exact .missing
  | succ n ih => exact ⟨ih.climb_succ, ih.climbFrom_succ, ih.unary_succ, ih.primary_succ⟩

/-- If a text has a tree and the tree a value, then reading the text gives this value. -/
theorem read_eq_of_eval {tokens : TokenStream} {tree : Tree} {rest : Scope Tree} {a : α}
    (spells : Expression.read (Tree.scope tokens) = .ok tree rest) (value : tree.eval names here = .ok a) :
    Expression.read (⟨tokens, names, here⟩ : Scope α) = .ok a ⟨rest.tokens, names, here⟩ := by
  obtain ⟨s', ⟨left, rfl, rfl⟩, reads⟩ := (backsAt names here _).climb 1 ⟨tokens, rfl, rfl⟩ spells
  exact reads a value

end Reading

end Expression

/-! ### Operations on unknown values -/

namespace Address

variable {op : Operator} {l r l' r' a a' : Address}

/-- An undefined address may be combined with whatever anything is combined with. -/
theorem combinesUndefined_of_binary (h : binary op l r = .ok a) :
    combinesUndefined op l.origin = true ∧ combinesUndefined op r.origin = true := by
  have known : combinesUndefined op .undefined = true := rfl
  have number : combinesUndefined op .absolute = true := rfl
  have any (k : Origin) (moves : op = .add ∨ op = .sub) : combinesUndefined op k = true := by
    obtain rfl | rfl := moves <;> cases k <;> rfl
  unfold binary at h
  split at h
  · rename_i numbers
    simp only [isConst, Bool.and_eq_true, beq_iff_eq] at numbers
    rw [numbers.1, numbers.2]
    exact ⟨number, number⟩
  · split at h
    · cases h
    · split at h
      case h_1 left =>
        split at h
        · rename_i allowed
          rw [left]
          exact ⟨known, allowed⟩
        · cases h
      case h_2 right _ =>
        split at h
        · rename_i allowed
          rw [right]
          exact ⟨allowed, known⟩
        · cases h
      case h_3 | h_5 => exact ⟨any _ (.inl rfl), any _ (.inl rfl)⟩
      case h_4 | h_6 => exact ⟨any _ (.inr rfl), any _ (.inr rfl)⟩
      case h_7 => cases h

/-- Operators give whole addresses, never a byte of one. -/
theorem part_of_binary (h : binary op l r = .ok a) : a.part = .word := by
  unfold binary at h
  split at h
  · cases found : constOp op l.value r.value with
    | error e =>
      rw [found] at h
      cases h
    | ok v =>
      rw [found] at h
      cases h
      rfl
  · split at h
    · cases h
    · split at h
      case h_1 | h_2 | h_6 =>
        split at h
        · cases h
          rfl
        · cases h
      case h_3 | h_4 | h_5 => cases h; rfl
      case h_7 => cases h

theorem parts_of_binary (h : binary op l r = .ok a) :
    (l.isConst = true ∧ r.isConst = true) ∨ (l.part = .word ∧ r.part = .word) := by
  unfold binary at h
  split at h
  · rename_i numbers
    exact .inl (by simpa only [Bool.and_eq_true] using numbers)
  · split at h
    · cases h
    · rename_i words
      simp only [Bool.or_eq_true, bne_iff_ne, not_or, Decidable.not_not] at words
      exact .inr words

/-- Combining with a whole undefined address. -/
theorem binary_undefined (left : l.part = .word) (right : r.part = .word)
    (unknown : l.isUndefined = true ∨ r.isUndefined = true) (allowed : combinesUndefined op l.origin = true)
    (allowed' : combinesUndefined op r.origin = true) : binary op l r = .ok undefined := by
  have either : l.origin = .undefined ∨ r.origin = .undefined := by
    simpa only [isUndefined, beq_iff_eq] using unknown
  have numbers : (l.isConst && r.isConst) = false := by
    rcases either with origin | origin
    · simp [isConst, origin]
    · simp [isConst, origin]
  unfold binary
  rw [numbers, left, right]
  rcases either with origin | origin
  · simp [origin, allowed']
  · rw [origin] at allowed' ⊢
    cases other : l.origin with
    | undefined => simp [allowed']
    | absolute | space | external =>
      rw [other] at allowed
      simp [allowed]

/-- What an address may turn out to be: an unknown one any other whole address, any other only itself. -/
def StandsFor (a a' : Address) : Prop := a = a' ∨ (a.isUndefined = true ∧ a.part = .word ∧ a'.part = .word)

/-- A number is a whole address. -/
def IsPlain (a : Address) : Prop := a.isConst = true → a.part = .word

theorem StandsFor.isUndefined_or_eq (h : StandsFor a a') : a = a' ∨ a.isUndefined = true := h.imp_right And.left

theorem StandsFor.part (h : StandsFor a a') : a.part = a'.part := by
  obtain rfl | ⟨-, word, word'⟩ := h
  · rfl
  · rw [word, word']

theorem StandsFor.combinesUndefined (h : StandsFor a a') (allowed : combinesUndefined op a'.origin = true) :
    Address.combinesUndefined op a.origin = true := by
  obtain rfl | ⟨unknown, -⟩ := h
  · exact allowed
  · rw [beq_iff_eq.1 unknown]
    rfl

/-- Combining what stands for two addresses succeeds where combining them does. -/
theorem StandsFor.binary (left : StandsFor l l') (right : StandsFor r r') (plain : l'.IsPlain) (plain' : r'.IsPlain)
    (h : Address.binary op l' r' = .ok a') : ∃ a, Address.binary op l r = .ok a ∧ StandsFor a a' := by
  obtain ⟨allowed, allowed'⟩ := combinesUndefined_of_binary h
  have words : l'.part = .word ∧ r'.part = .word := by
    obtain numbers | words := parts_of_binary h
    · exact ⟨plain numbers.1, plain' numbers.2⟩
    · exact words
  have unknown (either : l.isUndefined = true ∨ r.isUndefined = true) :
      ∃ a, Address.binary op l r = .ok a ∧ StandsFor a a' :=
    ⟨undefined, binary_undefined (left.part.trans words.1) (right.part.trans words.2) either
      (left.combinesUndefined allowed) (right.combinesUndefined allowed'), .inr ⟨rfl, rfl, part_of_binary h⟩⟩
  obtain rfl | l := left.isUndefined_or_eq
  · obtain rfl | r := right.isUndefined_or_eq
    · exact ⟨a', h, .inl rfl⟩
    · exact unknown (.inr r)
  · exact unknown (.inl l)

theorem IsPlain.onConstant {f : UInt16 → UInt16} {cause : Cause} (plain : l'.IsPlain)
    (h : l'.onConstant f cause = .ok a') : a'.IsPlain := by
  unfold Address.onConstant at h
  split at h <;> cases h
  · exact fun _ => rfl
  · exact plain

/-- So does an operation on numbers. -/
theorem StandsFor.onConstant {f : UInt16 → UInt16} {cause : Cause} (operand : StandsFor l l')
    (h : l'.onConstant f cause = .ok a') : ∃ a, l.onConstant f cause = .ok a ∧ StandsFor a a' := by
  obtain rfl | ⟨unknown, word, word'⟩ := operand
  · exact ⟨a', h, .inl rfl⟩
  · have part : a'.part = .word := by
      unfold Address.onConstant at h
      split at h <;> cases h
      · rfl
      · exact word'
    refine ⟨l, ?_, .inr ⟨unknown, word, part⟩⟩
    unfold Address.onConstant
    rw [beq_iff_eq.1 unknown]

/-- A byte of an unknown address is unknown as well, but it is no whole address any more. -/
theorem StandsFor.select {part : Part} (operand : StandsFor l l') (h : l'.select part = .ok a') :
    ∃ a, l.select part = .ok a ∧ (a = a' ∨ a.isUndefined = true) := by
  obtain rfl | ⟨unknown, word, -⟩ := operand
  · exact ⟨a', h, .inl rfl⟩
  · refine ⟨{ l with part }, ?_, .inr unknown⟩
    have number : l.isConst = false := by
      rw [isConst, beq_iff_eq.1 unknown]
      rfl
    rw [Address.select, word, number]
    rfl

end Address

/-! ### Expressions -/

namespace Expression

open Address (StandsFor IsPlain)

variable {names names' : String → Address} {here : Address}

namespace Tree

/-- No byte is selected. -/
def isWhole : Tree → Bool
  | number _ | name _ | location => true
  | binary _ l r => l.isWhole && r.isWhole
  | negate t | complement t => t.isWhole
  | select _ _ => false

/-- A byte is selected at most once, after all that is computed. -/
def selectsLast : Tree → Bool
  | select _ t => t.isWhole
  | t => t.isWhole

/-- Names that are not known yet stand for the addresses that they get. -/
theorem standsFor_eval (stand : ∀ n, (names n).StandsFor (names' n)) (plain : ∀ n, (names' n).IsPlain)
    (located : here.IsPlain) {t : Tree} (whole : t.isWhole = true) {a' : Address} (value : t.eval names' here = .ok a') :
    a'.IsPlain ∧ ∃ a, t.eval names here = .ok a ∧ a.StandsFor a' := by
  induction t generalizing a' with
  | number v =>
    cases value
    exact ⟨fun _ => rfl, _, rfl, .inl rfl⟩
  | name n =>
    cases value
    exact ⟨plain n, _, rfl, stand n⟩
  | location =>
    cases value
    exact ⟨located, _, rfl, .inl rfl⟩
  | binary op l r left right =>
    simp only [isWhole, Bool.and_eq_true] at whole
    obtain ⟨x', hx', value⟩ := exists_of_bind value
    obtain ⟨y', hy', value⟩ := exists_of_bind value
    obtain ⟨plain, x, hx, first⟩ := left whole.1 hx'
    obtain ⟨plain', y, hy, second⟩ := right whole.2 hy'
    obtain ⟨a, combined, result⟩ := first.binary second plain plain' value
    refine ⟨fun _ => Address.part_of_binary value, a, ?_, result⟩
    simp only [eval, hx, hy]
    exact combined
  | negate t ih | complement t ih =>
    obtain ⟨x', hx', value⟩ := exists_of_bind value
    obtain ⟨plain, x, hx, operand⟩ := ih whole hx'
    obtain ⟨a, turned, result⟩ := operand.onConstant value
    refine ⟨plain.onConstant value, a, ?_, result⟩
    simp only [eval, hx]
    exact turned
  | select part t => cases whole

/-- The same if a byte is selected from the result. -/
theorem eval_of_standsFor (stand : ∀ n, (names n).StandsFor (names' n)) (plain : ∀ n, (names' n).IsPlain)
    (located : here.IsPlain) {t : Tree} (last : t.selectsLast = true) {a' : Address} (value : t.eval names' here = .ok a') :
    ∃ a, t.eval names here = .ok a ∧ (a = a' ∨ a.isUndefined = true) := by
  by_cases whole : t.isWhole = true
  · obtain ⟨-, a, value, result⟩ := standsFor_eval stand plain located whole value
    exact ⟨a, value, result.isUndefined_or_eq⟩
  · cases t with
    | select part t =>
      obtain ⟨x', hx', value⟩ := exists_of_bind value
      obtain ⟨-, x, hx, operand⟩ := standsFor_eval stand plain located last hx'
      obtain ⟨a, selected, result⟩ := operand.select value
      refine ⟨a, ?_, result⟩
      simp only [eval, hx]
      exact selected
    | number | name | location | binary | negate | complement => exact absurd last whole

end Tree

/-- Let the names that are unknown in one scope have any whole addresses in another. An expression that selects a byte
at the end, or none, and can be read in the other scope can be read in the first one, up to the same token, and its value
is the same or still unknown. -/
theorem read_before_known {tokens : TokenStream} {tree : Tree} {end_ : Scope Tree} {a' : Address} {rest : Scope Address}
    (spells : Expression.read (Tree.scope tokens) = .ok tree end_) (last : tree.selectsLast = true)
    (getKnown : ∀ n, names' n = names n ∨
      ((names n).isUndefined = true ∧ (names n).part = .word ∧ (names' n).part = .word))
    (numbers : ∀ n, (names' n).isConst = true → (names' n).part = .word)
    (located : here.isConst = true → here.part = .word)
    (run : Expression.read (⟨tokens, names', here⟩ : Scope Address) = .ok a' rest) :
    ∃ a, Expression.read (⟨tokens, names, here⟩ : Scope Address) = .ok a { rest with names } ∧
      (a = a' ∨ a.isUndefined = true) := by
  obtain ⟨tree', end', spells', ⟨left, rfl, rfl⟩, value⟩ :=
    (evaluation names' here).read _ _ _ _ ⟨tokens, rfl, rfl⟩ run
  cases spells.symm.trans spells'
  have stand (n : String) : (names n).StandsFor (names' n) := (getKnown n).imp_left Eq.symm
  obtain ⟨a, before, result⟩ := tree.eval_of_standsFor stand numbers located last value
  exact ⟨a, read_eq_of_eval spells before, result⟩

/-- As long as `tail` is unknown, so is the high byte of its distance from `table`; later the distance is a number. -/
theorem read_before_tail_known :
    let tokens : TokenStream := { top := .ofText 0 ">(tail - table + 2)" }
    let names (tail : Address) (name : String) : Address := if name = "tail" then tail else .inSpace .data 0xf0
    ∃ a rest, Expression.read (⟨tokens, names (.inSpace .data 0x3f8), .inSpace .code 0⟩ : Scope Address) =
        .ok (.constant 3) rest
      ∧ Expression.read (⟨tokens, names .undefined, .inSpace .code 0⟩ : Scope Address) =
        .ok a { rest with names := names .undefined }
      ∧ (a = .constant 3 ∨ a.isUndefined = true) := by
  intro tokens names
  have spelled : (match Expression.read (Tree.scope tokens) with
      | .ok tree _ => tree.selectsLast
      | .error _ _ => false) = true := by decide +kernel
  have evaluates : (match Expression.read (⟨tokens, names (.inSpace .data 0x3f8), .inSpace .code 0⟩ : Scope Address) with
      | .ok a _ => decide (a = .constant 3)
      | .error _ _ => false) = true := by decide +kernel
  split at spelled
  · rename_i tree end_ spells
    split at evaluates
    · rename_i a' rest run
      obtain rfl := of_decide_eq_true evaluates
      have getKnown (n : String) : names (.inSpace .data 0x3f8) n = names .undefined n ∨
          ((names .undefined n).isUndefined = true ∧ (names .undefined n).part = .word
            ∧ (names (.inSpace .data 0x3f8) n).part = .word) := by
        by_cases tail : n = "tail"
        · exact .inr (by rw [show names .undefined n = .undefined from if_pos tail,
            show names (.inSpace .data 0x3f8) n = .inSpace .data 0x3f8 from if_pos tail]; decide)
        · exact .inl ((if_neg tail).trans (if_neg tail).symm)
      have words (n : String) : (names (.inSpace .data 0x3f8) n).part = .word := by
        dsimp only [names]
        split <;> rfl
      obtain ⟨a, before, result⟩ := read_before_known spells spelled getKnown (fun n _ => words n) (fun _ => rfl) run
      exact ⟨a, rest, run, before, result⟩
    · cases evaluates
  · cases spelled

end Expression

end Asm65
