import Asm65.Proofs.Reading

/-!
# Relocation and evaluation

The value of an expression is known only up to where the spaces of the module and the externals end up. Once
they are placed, the address that an expression evaluates to has the value that the expression has in plain
sixteen-bit arithmetic on the placed values of its names: wherever evaluation accepts an operation, the bases
cancel or are added exactly once.
-/

namespace Asm65
set_option autoImplicit false

/-- Sixteen-bit arithmetic on numbers: sums, differences, products and shifts modulo 2^16. -/
def wordOp (op : Operator) (l r : UInt16) : Except Cause UInt16 :=
  match op with
  | .add => .ok (.ofNat (l.toNat + r.toNat))
  | .sub => .ok (.ofNat (l.toNat + (0x10000 - r.toNat)))
  | .mul => .ok (.ofNat (l.toNat * r.toNat))
  | .div => if r = 0 then .error .divisionByZero else .ok (.ofNat (l.toNat / r.toNat))
  | .mod => if r = 0 then .error .divisionByZero else .ok (.ofNat (l.toNat % r.toNat))
  | .and => .ok (.ofNat (l.toNat &&& r.toNat))
  | .or => .ok (.ofNat (l.toNat ||| r.toNat))
  | .xor => .ok (.ofNat (l.toNat ^^^ r.toNat))
  | .shl => .ok (.ofNat (l.toNat <<< r.toNat))
  | .shr => .ok (.ofNat (l.toNat >>> r.toNat))

/-- A byte of a number. -/
def wordByte : Part → UInt16 → UInt16
  | .word, v => v
  | .low, v => .ofNat (v.toNat % 0x100)
  | .high, v => .ofNat (v.toNat / 0x100)

/-- Plain numbers refuse nothing but a division by zero. -/
instance : Arithmetic UInt16 where
  constant v := v
  binary := wordOp
  negate v := .ok (.ofNat (0x10000 - v.toNat))
  complement v := .ok (.ofNat (0xffff - v.toNat))
  select part v := .ok (wordByte part v)

theorem shiftLeft_eq_ofNat (l r : UInt16) : (if r < 16 then l <<< r else 0) = .ofNat (l.toNat <<< r.toNat) := by
  apply UInt16.toNat_inj.1
  rw [Nat.shiftLeft_eq]
  have hr : r < 16 ↔ r.toNat < 16 := UInt16.lt_iff_toNat_lt
  split
  · rename_i h
    have : r.toNat % 16 = r.toNat := Nat.mod_eq_of_lt (hr.1 h)
    simp [UInt16.toNat_shiftLeft, this, Nat.shiftLeft_eq]
  · rename_i h
    have large : 16 ≤ r.toNat := Nat.le_of_not_lt fun small => h (hr.2 small)
    have dvd : 2 ^ 16 ∣ l.toNat * 2 ^ r.toNat := Nat.dvd_mul_left_of_dvd (Nat.pow_dvd_pow 2 large) _
    simpa using (Nat.mod_eq_zero_of_dvd dvd).symm

theorem shiftRight_eq_ofNat (l r : UInt16) : (if r < 16 then l >>> r else 0) = .ofNat (l.toNat >>> r.toNat) := by
  apply UInt16.toNat_inj.1
  rw [Nat.shiftRight_eq_div_pow]
  have hr : r < 16 ↔ r.toNat < 16 := UInt16.lt_iff_toNat_lt
  have hl : l.toNat < 2 ^ 16 := l.toNat_lt
  rw [UInt16.toNat_ofNat_of_lt' (Nat.lt_of_le_of_lt (Nat.div_le_self _ _) hl)]
  split
  · rename_i h
    have : r.toNat % 16 = r.toNat := Nat.mod_eq_of_lt (hr.1 h)
    simp [UInt16.toNat_shiftRight, this, Nat.shiftRight_eq_div_pow]
  · rename_i h
    have large : 16 ≤ r.toNat := Nat.le_of_not_lt fun small => h (hr.2 small)
    rw [Nat.div_eq_of_lt (Nat.lt_of_lt_of_le hl (Nat.pow_le_pow_right (by decide) large))]
    rfl

/-- Constants combine as plain numbers do. -/
theorem constOp_eq_wordOp (op : Operator) (l r : UInt16) : Address.constOp op l r = wordOp op l r := by
  have hl : l.toNat < 0x10000 := l.toNat_lt
  have hr : r.toNat < 0x10000 := r.toNat_lt
  cases op <;> simp only [Address.constOp, wordOp]
  case add => simp
  case sub => congr 1; apply UInt16.toNat_inj.1; simp [UInt16.toNat_sub]; omega
  case mul => simp
  case div =>
    split
    · rfl
    · congr 1
      apply UInt16.toNat_inj.1
      rw [UInt16.toNat_div, UInt16.toNat_ofNat_of_lt' (Nat.lt_of_le_of_lt (Nat.div_le_self _ _) hl)]
  case mod =>
    split
    · rfl
    · congr 1
      apply UInt16.toNat_inj.1
      rw [UInt16.toNat_mod, UInt16.toNat_ofNat_of_lt' (Nat.lt_of_le_of_lt (Nat.mod_le _ _) hl)]
  case and => simp
  case or => simp
  case xor => simp
  case shl => rw [shiftLeft_eq_ofNat]
  case shr => rw [shiftRight_eq_ofNat]

theorem apply_eq_wordByte (part : Part) (v : UInt16) : part.apply v = wordByte part v := by
  have hv : v.toNat < 0x10000 := v.toNat_lt
  cases part with
  | word => rfl
  | low =>
    apply UInt16.toNat_inj.1
    have mask : v.toNat &&& 0xff = v.toNat % 0x100 := Nat.and_two_pow_sub_one_eq_mod _ 8
    simp only [Part.apply, wordByte, UInt16.toNat_and, UInt16.reduceToNat, mask]
    rw [UInt16.toNat_ofNat_of_lt' (Nat.lt_of_le_of_lt (Nat.mod_le _ _) hv)]
  | high =>
    apply UInt16.toNat_inj.1
    simp only [Part.apply, wordByte, UInt16.toNat_shiftRight, UInt16.reduceToNat, Nat.reduceMod,
      Nat.shiftRight_eq_div_pow]
    rw [UInt16.toNat_ofNat_of_lt' (Nat.lt_of_le_of_lt (Nat.div_le_self _ _) hv)]

/-- Where the spaces of a module and its externals end up. -/
structure Placement where
  bases : PerSpace UInt16
  externals : SymbolId → UInt16

namespace Placement

variable (p : Placement)

/-- The final value of what an origin counts from. -/
def base : Origin → UInt16
  | .space s => p.bases.get s
  | .external id => p.externals id
  | .absolute | .undefined => 0

/-- The final value of an address: its relocated value, of which it may stand for a byte. -/
def value (a : Address) : UInt16 := a.part.apply (p.base a.origin + a.value)

end Placement

namespace Address

/-- Known, and whole if it is a number. -/
structure Definite (a : Address) : Prop where
  known : a.isUndefined = false
  whole (h : a.isConst = true) : a.part = .word

theorem definite_of {origin : Origin} (value : UInt16) (h : origin ≠ .undefined) : (of origin value).Definite :=
  ⟨by simpa [isUndefined, of] using h, fun _ => rfl⟩

theorem definite_constant (v : UInt16) : (constant v).Definite := definite_of v (by decide)

end Address

namespace Placement

open Address

variable (p : Placement)

theorem value_of_word {a : Address} (h : a.part = .word) : p.value a = p.base a.origin + a.value := by
  simp [value, h, Part.apply]

theorem value_of (origin : Origin) (v : UInt16) : p.value (of origin v) = p.base origin + v :=
  p.value_of_word rfl

@[simp] theorem value_constant (v : UInt16) : p.value (constant v) = v := by
  simp [constant, value_of, base]

theorem value_of_isConst {a : Address} (definite : a.Definite) (h : a.isConst = true) : p.value a = a.value := by
  have origin : a.origin = .absolute := by simpa [isConst] using h
  simp [p.value_of_word (definite.whole h), origin, base]

theorem wordOp_add (l r : UInt16) : wordOp .add l r = .ok (l + r) := (constOp_eq_wordOp .add l r).symm

theorem wordOp_sub (l r : UInt16) : wordOp .sub l r = .ok (l - r) := (constOp_eq_wordOp .sub l r).symm

/-- An operation that two addresses allow gives the plain result on their final values. -/
theorem wordOp_value {op : Operator} {l r a : Address} (hl : l.Definite) (hr : r.Definite)
    (h : binary op l r = .ok a) : a.Definite ∧ wordOp op (p.value l) (p.value r) = .ok (p.value a) := by
  unfold binary at h
  split at h
  · rename_i both
    obtain ⟨lconst, rconst⟩ := Bool.and_eq_true_iff.1 both
    rw [p.value_of_isConst hl lconst, p.value_of_isConst hr rconst, ← constOp_eq_wordOp]
    cases hv : constOp op l.value r.value with
    | error cause => rw [hv] at h; cases h
    | ok v =>
      rw [hv] at h
      cases h
      exact ⟨definite_constant v, by rw [value_constant]⟩
  · split at h
    · cases h
    · rename_i words
      have lword : l.part = .word := by simp_all
      have rword : r.part = .word := by simp_all
      -- one base is added to a number, or two equal bases cancel
      rw [p.value_of_word lword, p.value_of_word rword]
      have lknown : l.origin ≠ .undefined := by simpa [isUndefined] using hl.known
      have rknown : r.origin ≠ .undefined := by simpa [isUndefined] using hr.known
      split at h
      · exact absurd ‹l.origin = .undefined› lknown
      · exact absurd ‹r.origin = .undefined› rknown
      · cases h
        refine ⟨definite_of _ lknown, ?_⟩
        rw [wordOp_add, value_of, ‹r.origin = .absolute›, base, UInt16.zero_add, UInt16.add_assoc]
      · cases h
        refine ⟨definite_of _ lknown, ?_⟩
        rw [wordOp_sub, value_of, ‹r.origin = .absolute›, base, UInt16.zero_add, UInt16.sub_eq_add_neg,
          UInt16.sub_eq_add_neg, UInt16.add_assoc]
      · cases h
        refine ⟨definite_of _ rknown, ?_⟩
        rw [wordOp_add, value_of, ‹l.origin = .absolute›, base, UInt16.zero_add, ← UInt16.add_assoc,
          UInt16.add_comm l.value, UInt16.add_assoc]
      · rename_i s t left right
        split at h
        · rename_i same
          cases h
          refine ⟨definite_constant _, ?_⟩
          rw [wordOp_sub, value_constant, left, right, same]
          congr 1
          grind
        · cases h
      · cases h

/-- An operation on constants gives the plain result. -/
theorem onConstant_value {f : UInt16 → UInt16} {refused : Cause} {l a : Address} (hl : l.Definite)
    (h : l.onConstant f refused = .ok a) : a.Definite ∧ f (p.value l) = p.value a := by
  unfold Address.onConstant at h
  split at h
  · rename_i origin
    cases h
    rw [p.value_of_isConst hl (by simp [isConst, origin]), value_constant]
    exact ⟨definite_constant _, rfl⟩
  · rename_i origin
    have := hl.known
    simp [isUndefined, origin] at this
  · cases h

theorem negate_eq (v : UInt16) : Arithmetic.negate v = Except.ok (-v) :=
  congrArg Except.ok (UInt16.toNat_inj.1 (by simp [UInt16.toNat_neg]))

theorem complement_eq (v : UInt16) : Arithmetic.complement v = Except.ok (~~~v) := by
  have small : v.toNat < 0x10000 := v.toNat_lt
  exact congrArg Except.ok (UInt16.toNat_inj.1 (by simp [UInt16.toNat_not]; omega))

/-- Selecting a part of an address and giving it its final value can be done in either order. -/
theorem select_value {part : Part} {l a : Address} (hl : l.Definite) (h : l.select part = .ok a) :
    a.Definite ∧ Arithmetic.select part (p.value l) = .ok (p.value a) := by
  change a.Definite ∧ Except.ok (wordByte part (p.value l)) = .ok (p.value a)
  rw [← apply_eq_wordByte]
  unfold Address.select at h
  split at h
  · cases h
  · rename_i word
    have word : l.part = .word := by simpa using word
    split at h
    · rename_i const
      cases h
      rw [p.value_of_isConst hl const, value_constant]
      exact ⟨definite_constant _, rfl⟩
    · rename_i const
      cases h
      refine ⟨⟨hl.known, fun h => absurd h const⟩, ?_⟩
      rw [p.value_of_word word]
      rfl

/-- The scope with every name and the location replaced by its final value. -/
def relocate (scope : Scope Address) : Scope UInt16 :=
  { tokens := scope.tokens, names := fun name => p.value (scope.names name), location := p.value scope.location }

/-- Evaluation of addresses and evaluation of their final values keep step. -/
def simulation : Expression.Simulation (Scope Address) (Scope UInt16) Address UInt16 where
  state s t := t = p.relocate s ∧ (∀ name, (s.names name).Definite) ∧ s.location.Definite
  value a v := a.Definite ∧ v = p.value a
  next := by
    rintro s s' t token ⟨rfl, names, location⟩ h
    change Scope.nextToken s = .ok token s' at h
    unfold Scope.nextToken at h
    split at h
    · rename_i tokens hn
      cases h
      exact ⟨_, by simp only [Operands.next, Scope.nextToken, relocate, hn], rfl, names, location⟩
    · cases h
  unread := by
    rintro s t token ⟨rfl, names, location⟩
    exact ⟨rfl, names, location⟩
  resolve := by
    rintro s s' t name pos a ⟨rfl, names, location⟩ h
    cases h
    exact ⟨_, _, rfl, ⟨rfl, names, location⟩, names name, rfl⟩
  location := by
    rintro s t ⟨rfl, names, location⟩
    exact ⟨location, rfl⟩
  budget := by
    rintro s t ⟨rfl, _⟩
    rfl
  constant v := ⟨definite_constant v, (p.value_constant v).symm⟩
  binary := by
    rintro op l r a _ _ ⟨left, rfl⟩ ⟨right, rfl⟩ h
    obtain ⟨definite, value⟩ := p.wordOp_value left right h
    exact ⟨_, value, definite, rfl⟩
  negate := by
    rintro l a _ ⟨operand, rfl⟩ h
    obtain ⟨definite, value⟩ := p.onConstant_value operand h
    exact ⟨_, negate_eq _, definite, value⟩
  complement := by
    rintro l a _ ⟨operand, rfl⟩ h
    obtain ⟨definite, value⟩ := p.onConstant_value operand h
    exact ⟨_, complement_eq _, definite, value⟩
  select := by
    rintro part l a _ ⟨operand, rfl⟩ h
    obtain ⟨definite, value⟩ := p.select_value operand h
    exact ⟨_, value, definite, rfl⟩

end Placement

/-- If an expression evaluates to `a` over known addresses, then the final value of `a`, wherever spaces and
externals are placed, is what the same tokens evaluate to in plain sixteen-bit arithmetic over the final values
of the names. -/
theorem value_of_read_eq_read_of_values (p : Placement) (scope rest : Scope Address) (a : Address)
    (names : ∀ name, (scope.names name).Definite) (location : scope.location.Definite)
    (h : Expression.read scope = .ok a rest) :
    Expression.read (p.relocate scope) = .ok (p.value a) (p.relocate rest) := by
  obtain ⟨v, t, hv, ⟨ht, -⟩, -, rfl⟩ := p.simulation.read scope rest (p.relocate scope) a
    ⟨rfl, names, location⟩ h
  rw [hv, ht]

/-- In `>(tail + (tail - table) * 2)` the base of the data space cancels once and counts once; the byte is
selected from the final value. -/
theorem value_of_read_scaled_distance :
    let scope : Scope Address :=
      { tokens := { top := .ofText 0 ">(tail + (tail - table) * 2)" }
        names := fun name => .inSpace .data (if name = "tail" then 0xf8 else 0xf0)
        location := .inSpace .code 0x40 }
    let p : Placement := { bases := ⟨0x800, 0x1000, 0x80⟩, externals := fun _ => 0 }
    ∃ rest, Expression.read scope = .ok { Address.inSpace .data 0x108 with part := .high } rest
      ∧ Expression.read (p.relocate scope) = .ok 0x11 (p.relocate rest) := by
  intro scope p
  have known (name : String) : (scope.names name).Definite := Address.definite_of _ (by decide)
  have evaluates : (match Expression.read scope with
      | .ok a _ => decide (a = { Address.inSpace .data 0x108 with part := .high })
      | .error _ _ => false) = true := by decide +kernel
  split at evaluates
  · rename_i a rest h
    obtain rfl := of_decide_eq_true evaluates
    have plain := value_of_read_eq_read_of_values p scope rest _ known (Address.definite_of _ (by decide)) h
    exact ⟨rest, h, plain.trans (by rw [show p.value _ = 0x11 by decide])⟩
  · cases evaluates

end Asm65
