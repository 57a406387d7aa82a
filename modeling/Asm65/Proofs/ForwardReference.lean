import Asm65.Proofs.ExpressionTree
import Asm65.Proofs.Pass

/-!
# Instructions when names get known

An instruction whose operand is not known yet takes the longer form, and a branch to an unknown target the longest. So
when more names have values, an instruction assembles to as many bytes or fewer. There is one exception: a byte of an
unknown address counts as known to be short, and a sign or complement in front of it is applied only once the byte is a
number, which it can make too large for the zero page.
-/

namespace Asm65
set_option autoImplicit false

/-! ### Values -/

/-- An operator has an unknown result wherever an operand is not known. -/
theorem Address.eq_undefined_of_binary {op : Operator} {l r a : Address} (h : binary op l r = .ok a)
    (unknown : l.isUndefined = true ∨ r.isUndefined = true) : a = undefined := by
  have either : l.origin = .undefined ∨ r.origin = .undefined := by
    simpa only [isUndefined, beq_iff_eq] using unknown
  unfold binary at h
  split at h
  · rename_i numbers
    simp only [isConst, Bool.and_eq_true, beq_iff_eq] at numbers
    rcases either with l | r
    · cases numbers.1.symm.trans l
    · cases numbers.2.symm.trans r
  · split at h
    · cases h
    · split at h
      · split at h <;> cases h
        rfl
      · split at h <;> cases h
        rfl
      all_goals simp_all

theorem Part.apply_lt {part : Part} (byte : part ≠ .word) (v : UInt16) : part.apply v < 0x100 := by
  rw [UInt16.lt_iff_toNat_lt]
  cases part with
  | word => exact (byte rfl).elim
  | low =>
    show (v &&& 0xff).toNat < 256
    rw [UInt16.toNat_and]
    exact Nat.lt_succ_of_le Nat.and_le_right
  | high =>
    show (v >>> 8).toNat < 256
    rw [UInt16.toNat_shiftRight]
    have shifted : v.toNat >>> 8 = v.toNat / 256 := Nat.shiftRight_eq_div_pow v.toNat 8
    have bound := v.toNat_lt
    show v.toNat >>> 8 < 256
    omega

namespace Expression.Tree

/-- A selected byte, perhaps with signs and complements in front. -/
def isByte : Tree → Bool
  | select _ _ => true
  | negate t | complement t => t.isByte
  | _ => false

/-- A selected byte with a sign or complement in front. -/
def turnsByte : Tree → Bool
  | negate t | complement t => t.isByte
  | _ => false

/-- How the value of an expression can change when names get known. -/
inductive Settles (t : Tree) (a : Address) : Address → Prop where
  | same : Settles t a a
  | word {a' : Address} (unknown : a.isUndefined = true) (word : a.part = .word) : Settles t a a'
  | byte {a' : Address} (unknown : a.isUndefined = true) (byte : a.part ≠ .word) (form : t.isByte = true)
    (part : a'.part = a.part) : Settles t a a'
  | number {a' : Address} (unknown : a.isUndefined = true) (byte : a.part ≠ .word) (form : t.isByte = true)
    (number : a'.isConst = true) (size : a'.value < 0x100 ∨ t.turnsByte = true) : Settles t a a'

theorem Settles.unknown_or_eq {t : Tree} {a a' : Address} (h : Settles t a a') : a.isUndefined = true ∨ a' = a := by
  cases h with
  | same => exact .inr rfl
  | word unknown | byte unknown | number unknown => exact .inl unknown

/-- Only a byte with a sign or complement in front fits a byte as long as it is unknown, and not as a number. -/
theorem Settles.stretches_iff {t : Tree} {a a' : Address} (h : Settles t a a') :
    (a.isByteSized = true ∧ a'.isByteSized = false) ↔
      t.turnsByte = true ∧ (a.isUndefined = true ∧ a.part ≠ .word) ∧ a'.isConst = true ∧ a'.isByteSized = false := by
  have byteSized {b : Address} (byte : b.part ≠ .word) : b.isByteSized = true := by
    rw [Address.isByteSized, bne_iff_ne.2 byte]
    rfl
  constructor
  · rintro ⟨short, long⟩
    cases h with
    | same => cases short.symm.trans long
    | word unknown word =>
      rw [Address.isByteSized, Address.isConst, beq_iff_eq.1 unknown, word] at short
      cases short
    | byte unknown byte form part => cases (byteSized (part ▸ byte)).symm.trans long
    | number unknown byte form number size =>
      obtain small | turned := size
      · rw [Address.isByteSized, number, decide_eq_true small, Bool.and_true, Bool.or_true] at long
        cases long
      · exact ⟨turned, ⟨unknown, byte⟩, number, long⟩
  · rintro ⟨-, ⟨-, byte⟩, -, long⟩
    exact ⟨byteSized byte, long⟩

/-- An operation that only constants have turns a byte. -/
theorem Settles.onConstant {t u : Tree} {f : UInt16 → UInt16} {cause : Cause} {l l' a a' : Address} (h : Settles t l l')
    (form : u.isByte = t.isByte) (turned : u.turnsByte = t.isByte) (run : l.onConstant f cause = .ok a)
    (run' : l'.onConstant f cause = .ok a') : Settles u a a' := by
  -- what is unknown stays as it is, and what changes is a number then
  have keeps (unknown : l.isUndefined = true) : a = l := by
    unfold Address.onConstant at run
    rw [beq_iff_eq.1 unknown] at run
    exact (Except.ok.inj run).symm
  have turns : (∃ v, a' = .constant v) ∨ a' = l' := by
    unfold Address.onConstant at run'
    split at run' <;> cases run'
    · exact .inl ⟨_, rfl⟩
    · exact .inr rfl
  cases h with
  | same =>
    cases run.symm.trans run'
    exact .same
  | word unknown word =>
    obtain rfl := keeps unknown
    exact .word unknown word
  | byte unknown byte isByte part =>
    obtain rfl := keeps unknown
    rw [isByte] at form turned
    obtain ⟨v, rfl⟩ | rfl := turns
    · exact .number unknown byte form rfl (.inr turned)
    · exact .byte unknown byte form part
  | number unknown byte isByte number =>
    obtain rfl := keeps unknown
    rw [isByte] at form turned
    obtain ⟨v, rfl⟩ | rfl := turns
    · exact .number unknown byte form rfl (.inr turned)
    · exact .number unknown byte form number (.inr turned)

/-- Selecting a byte of an address that gets known gives a byte, of the address or as a number. -/
theorem Settles.select {t : Tree} {part : Part} {l l' a a' : Address} (h : Settles t l l')
    (run : l.select part = .ok a) (run' : l'.select part = .ok a') : Settles (.select part t) a a' := by
  obtain unknown | rfl := h.unknown_or_eq
  · unfold Address.select at run run'
    have number : l.isConst = false := by
      rw [Address.isConst, beq_iff_eq.1 unknown]
      rfl
    rw [number] at run
    split at run
    · cases run
    · cases run
      by_cases byte : part = .word
      · exact .word unknown byte
      · split at run'
        · cases run'
        · split at run' <;> cases run'
          · exact .number unknown byte rfl rfl (.inl (Part.apply_lt byte _))
          · exact .byte unknown byte rfl rfl
  · cases run.symm.trans run'
    exact .same

variable {names names' : String → Address} {here : Address}

/-- If names get known, an expression that has a value before and after changes it only if it was not known. -/
theorem settles_eval
    (agree : ∀ n, names' n = names n ∨ (names n).isUndefined = true ∧ (names n).part = .word) {t : Tree} {a a' : Address}
    (value : t.eval names here = .ok a) (value' : t.eval names' here = .ok a') : t.Settles a a' := by
  induction t generalizing a a' with
  | number v =>
    cases value
    cases value'
    exact .same
  | name n =>
    cases value
    cases value'
    obtain same | ⟨unknown, word⟩ := agree n
    · rw [same]
      exact .same
    · exact .word unknown word
  | location =>
    cases value
    cases value'
    exact .same
  | binary op l r left right =>
    obtain ⟨x, hx, value⟩ := exists_of_bind value
    obtain ⟨y, hy, value⟩ := exists_of_bind value
    obtain ⟨x', hx', value'⟩ := exists_of_bind value'
    obtain ⟨y', hy', value'⟩ := exists_of_bind value'
    obtain unknown | rfl := (left hx hx').unknown_or_eq
    · rw [Address.eq_undefined_of_binary value (.inl unknown)]
      exact .word rfl rfl
    · obtain unknown | rfl := (right hy hy').unknown_or_eq
      · rw [Address.eq_undefined_of_binary value (.inr unknown)]
        exact .word rfl rfl
      · cases value.symm.trans value'
        exact .same
  | negate t ih | complement t ih =>
    obtain ⟨x, hx, value⟩ := exists_of_bind value
    obtain ⟨x', hx', value'⟩ := exists_of_bind value'
    exact (ih hx hx').onConstant rfl rfl value value'
  | select part t ih =>
    obtain ⟨x, hx, value⟩ := exists_of_bind value
    obtain ⟨x', hx', value'⟩ := exists_of_bind value'
    exact (ih hx hx').select value value'

end Expression.Tree

namespace Assembler

/-! ### Lengths of instructions -/

/-- After `n` more bytes in the same space. -/
structure Emits (n : Nat) (s t : Assembler) : Prop where
  current : t.current = s.current
  size : (t.segment s.current).size = (s.segment s.current).size + n

variable {s t u : Assembler} {n k : Nat}

theorem Emits.trans (h : Emits n s t) (h' : Emits k t u) : Emits (n + k) s u := by
  refine ⟨h'.current.trans h.current, ?_⟩
  have size := h'.size
  rw [h.current, h.size] at size
  rw [size, Nat.add_assoc]

theorem Emits.log (h : Emits n s t) (e : Event) : Emits n s (t.log e) := ⟨h.current, h.size⟩

/-- Nothing else matters. -/
theorem Emits.of_eq (h : Emits n s t) {s' : Assembler} (segments : s'.segments = s.segments)
    (current : s'.current = s.current) : Emits n s' t := by
  refine ⟨h.current.trans current.symm, ?_⟩
  rw [current, segment, segment, segments]
  exact h.size

theorem emits_emit (s : Assembler) (b : UInt8) : Emits 1 s (s.emit b) := by
  refine ⟨rfl, ?_⟩
  rw [segment_emit_self]
  exact Array.size_push _

theorem emits_emitByteOperand (s : Assembler) (pos : Position) (a : Address) : Emits 1 s (s.emitByteOperand pos a) := by
  unfold emitByteOperand
  dsimp only
  split
  · split
    · exact (emits_emit _ _).of_eq rfl rfl
    · exact (emits_emit _ _).of_eq rfl rfl
  · exact (emits_emit _ _).of_eq rfl rfl
  · split
    · split
      · exact (emits_emit _ _).of_eq rfl rfl
      · exact (emits_emit _ _).of_eq rfl rfl
    · exact (emits_emit _ _).of_eq rfl rfl

theorem emits_emitWord (s : Assembler) (a : Address) : Emits 2 s (s.emitWord a) := by
  have two (t : Assembler) (b c : UInt8) : Emits 2 t ((t.emit b).emit c) := (emits_emit t b).trans (emits_emit _ c)
  unfold emitWord
  dsimp only
  split
  · exact (two _ _ _).of_eq rfl rfl
  · exact (two _ _ _).of_eq rfl rfl
  · exact (two _ _ _).of_eq rfl rfl

theorem emits_emitPointer (s : Assembler) (pos : Position) (a : Address) : Emits 2 s (s.emitPointer pos a) := by
  unfold emitPointer
  split
  · exact (emits_emitWord _ _).of_eq rfl rfl
  · exact emits_emitWord s a

section Instruction

variable {m : Mnemonic} {mode : Mode} {pos : Position} {a : Address}

theorem emits_emitOpcode (run : Asm.emitOpcode m mode pos s = .ok () t) : Emits 1 s t := by
  unfold Asm.emitOpcode at run
  split at run <;> cases run
  exact emits_emit s _

theorem emits_emitWith {write : Assembler → Assembler} (written : ∀ s, Emits n s (write s))
    (run : Asm.emitWith m mode pos write s = .ok () t) : Emits (1 + n) s t := by
  obtain ⟨_, u, opcode, rest⟩ := exists_of_bind_eq_ok run
  cases rest
  exact (emits_emitOpcode opcode).trans (written u)

theorem emits_emitWithByte (run : Asm.emitWithByte m mode a pos s = .ok () t) : Emits 2 s t :=
  emits_emitWith (fun s => (emits_emitByteOperand s pos a).log _) run

theorem emits_emitWithPointer (run : Asm.emitWithPointer m mode a pos s = .ok () t) : Emits 3 s t :=
  emits_emitWith (fun s => emits_emitPointer s pos a) run

/-- Whether an address is written in the zero page form. -/
def takesShort (s : Assembler) (m : Mnemonic) (a : Address) (index : Index) : Bool :=
  s.cpu.has m (Asm.directModes index).1 && (a.isByteSized || !s.cpu.has m (Asm.directModes index).2)

theorem emits_emitDirect {index : Index} (run : Asm.emitDirect m a index pos s = .ok () t) :
    Emits (if s.takesShort m a index then 2 else 3) s t := by
  obtain ⟨_, _, asked, run⟩ := exists_of_bind_eq_ok run
  cases asked
  dsimp only at run
  unfold takesShort
  split at run
  · rename_i short
    rw [if_pos short]
    exact emits_emitWithByte run
  · rename_i long
    rw [if_neg long]
    split at run
    · exact emits_emitWithPointer run
    · exact emits_emitWith (fun s => emits_emitWord s a) run

/-- How long a branch is that does not reach. -/
def longForm (o : Options) (op : UInt8) : Nat :=
  if !o.longBranches then 2 else if op == Opcode.branchAlways then 3 else 5

theorem two_le_longForm (o : Options) (op : UInt8) : 2 ≤ longForm o op := by
  unfold longForm
  split
  · decide
  · split <;> decide

/-- How long a branch is for which this was decided. -/
def branchLength (long : Nat) : Reach → Nat
  | .short _ => 2
  | _ => long

/-- The length that comes with a decision is the one of the form decided for. -/
theorem length_of_estimate {target : Address} {long index length : Nat} {r : Reach}
    (h : s.estimate pos target 2 long index = (.ok r, length)) : length = branchLength long r := by
  unfold estimate at h
  dsimp only at h
  split at h
  · cases h
    rfl
  · split at h
    · cases h
    · split at h <;> cases h <;> rfl

theorem emits_emitShort {op : UInt8} {k : Int} (run : Asm.emitShort op k s = .ok () t) : Emits 2 s t := by
  cases run
  exact (emits_emit s op).trans (emits_emit _ _)

theorem emits_emitJump {target : Address} (run : Asm.emitJump target pos s = .ok () t) : Emits 3 s t := by
  cases run
  exact (emits_emit s _).trans (emits_emitPointer _ pos target)

theorem emits_emitAround {op : UInt8} {target : Address} (run : Asm.emitAround op target pos s = .ok () t) :
    Emits 5 s t := by
  obtain ⟨_, _, around, rest⟩ := exists_of_bind_eq_ok run
  cases around
  exact ((emits_emit s _).trans (emits_emit _ _)).trans (emits_emitJump rest)

/-- What is not in reach is as long as options and opcode say. -/
theorem emits_longForm {o : Options} {op : UInt8} {target : Address} {short : Asm Unit}
    (two : short s = .ok () t → Emits 2 s t)
    (run : (if !o.longBranches then short else if op == Opcode.branchAlways then Asm.emitJump target pos
      else Asm.emitAround op target pos) s = .ok () t) : Emits (longForm o op) s t := by
  unfold longForm
  split at run
  · rename_i off
    rw [if_pos off]
    exact two run
  · rename_i on
    rw [if_neg on]
    split at run
    · rename_i always
      rw [if_pos always]
      exact emits_emitJump run
    · rename_i conditional
      rw [if_neg conditional]
      exact emits_emitAround run

/-- A branch adds as many bytes as the form has that was decided for. -/
theorem emits_branch {op : UInt8} {target : Address} (run : Asm.branch op target pos s = .ok () t) :
    ∃ r length, s.estimate pos target 2 (longForm s.options op) s.reachLog.size = (.ok r, length)
      ∧ Emits (branchLength (longForm s.options op) r) s t := by
  obtain ⟨_, _, asked, run⟩ := exists_of_bind_eq_ok run
  cases asked
  obtain ⟨r, u, decides, run⟩ := exists_of_bind_eq_ok run
  obtain ⟨length, decided, left⟩ := exists_of_reach decides
  have segments : u.segments = s.segments := by
    rw [left]
    rfl
  have current : u.current = s.current := by
    rw [left]
    rfl
  refine ⟨r, length, decided, Emits.of_eq (s := u) ?_ segments.symm current.symm⟩
  cases r with
  | short k => exact emits_emitShort run
  | far k =>
    refine emits_longForm (fun run => ?_) run
    obtain ⟨_, v, held, run⟩ := exists_of_bind_eq_ok run
    cases held
    exact (emits_emitShort run).of_eq rfl rfl
  | unknown => exact emits_longForm emits_emitShort run

/-! ### Decisions about branches -/

theorem estimate_unknown {target : Address} {short long index : Nat} (unknown : target.isUndefined = true) :
    s.estimate pos target short long index = (.ok .unknown, long) := by
  unfold estimate
  rw [if_pos unknown]

/-- A number is no target. -/
theorem estimate_number {target : Address} {short long index length : Nat} {r : Reach} (number : target.isConst = true) :
    s.estimate pos target short long index ≠ (.ok r, length) := by
  intro decided
  have origin : target.origin = .absolute := beq_iff_eq.1 number
  have known : ¬ target.isUndefined = true := by
    rw [Address.isUndefined, origin]
    exact Bool.false_ne_true
  have away : (target.origin != s.here.origin) = true := by
    rw [origin, bne_iff_ne]
    intro same
    cases same
  unfold estimate at decided
  rw [if_neg known, away, Bool.true_or, if_pos rfl] at decided
  cases decided

/-- Without a log, a decision depends on the place and the target alone. -/
theorem estimate_unlogged {s' : Assembler} (log : s.lastReachLog = #[]) (log' : s'.lastReachLog = #[])
    (here : s'.here = s.here) {target : Address} {short long index index' length length' : Nat} {r r' : Reach}
    (decided : s.estimate pos target short long index = (.ok r, length))
    (decided' : s'.estimate pos target short long index' = (.ok r', length')) : r' = r := by
  have logged (i : Nat) : logged? #[] i pos = none := rfl
  unfold estimate at decided decided'
  rw [log] at decided
  rw [log', here] at decided'
  dsimp only at decided decided'
  rw [logged] at decided decided'
  split at decided
  · rename_i unknown
    rw [if_pos unknown] at decided'
    cases decided
    cases decided'
    rfl
  · rename_i known
    rw [if_neg known] at decided'
    split at decided
    · cases decided
    · rename_i inSpace
      rw [if_neg inSpace] at decided'
      cases decided.symm.trans decided'
      rfl

/-! ### Two states -/

/-- Two states at the same place of the same source, with the same settings and no log of branches. The second gives
every name the value that it has in the first, except for names that have no value there. -/
structure KnowsMore (s s' : Assembler) : Prop where
  sound : s.Sound
  sound' : s'.Sound
  cpu : s'.cpu = s.cpu
  options : s'.options = s.options
  tokens : s'.tokens = s.tokens
  start : s'.start = s.start
  here : s'.here = s.here
  log : s.lastReachLog = #[]
  log' : s'.lastReachLog = #[]
  names (name : String) :
    s'.valueOf name = s.valueOf name ∨ (s.valueOf name).isUndefined = true ∧ (s.valueOf name).part = .word

/-- An expression with a sign or complement in front of a byte of an unknown address, which turns out to be a number
that does not fit the zero page, for an instruction that has both a zero page and an absolute form. -/
structure Stretches (s s' : Assembler) (m : Mnemonic) (tree : Expression.Tree) (index : Index) : Prop where
  form : tree.turnsByte = true
  before : ∃ a, tree.eval s.valueOf s.start = .ok a ∧ a.isUndefined = true ∧ a.part ≠ .word
  after : ∃ a, tree.eval s'.valueOf s'.start = .ok a ∧ a.isConst = true ∧ a.isByteSized = false
  short : s.cpu.has m (Asm.directModes index).1 = true
  long : s.cpu.has m (Asm.directModes index).2 = true

/-- An operand is the tree that its tokens read as, evaluated. -/
theorem reads_operand (sound : s.Sound) {o : Operand Address} (run : Asm.operand s = .ok o u) :
    ∃ trees rest, Operand.read (Expression.Tree.scope s.tokens) = .ok trees rest
      ∧ o.Relates (fun a tree => tree.eval s.valueOf s.start = .ok a) trees ∧ Stays s u := by
  obtain ⟨o', scope, reads, replays, same⟩ := (simulation s).operand s u ⟨s.tokens, s.valueOf, s.start⟩ o
    ⟨sound, .refl s, rfl, rfl⟩ run
  obtain ⟨trees, rest, plants, -, values⟩ := (Expression.evaluation s.valueOf s.start).operand _ _ _ _
    ⟨s.tokens, rfl, rfl⟩ reads
  obtain rfl := same.eq
  exact ⟨trees, rest, plants, values, replays.stays⟩

/-- After reading operands, the states still differ only in what they know. -/
theorem KnowsMore.here_of_stays {s' u u' : Assembler} (h : KnowsMore s s') (stays : Stays s u) (stays' : Stays s' u') :
    u'.here = u.here := by rw [stays.here, stays'.here, h.here]

section

variable {s' t' u' : Assembler} {tree : Expression.Tree} {index : Index} {a' : Address}

/-- The zero page form is given up only for a number that was a byte of an unknown address. -/
theorem emitDirect_settles (more : KnowsMore s s') (stays : Stays s u) (stays' : Stays s' u')
    (value : tree.eval s.valueOf s.start = .ok a) (value' : tree.eval s'.valueOf s'.start = .ok a')
    (run : Asm.emitDirect m a index pos u = .ok () t) (run' : Asm.emitDirect m a' index pos u' = .ok () t') :
    ∃ n n', Emits n u t ∧ Emits n' u' t' ∧ n' ≤ n + 1 ∧ (n < n' ↔ Stretches s s' m tree index) := by
  have settles : tree.Settles a a' := Expression.Tree.settles_eval more.names value (more.start ▸ value')
  have cpu : u'.cpu = s.cpu := by rw [stays'.cpu, more.cpu]
  refine ⟨_, _, emits_emitDirect run, emits_emitDirect run', by split <;> split <;> omega, ?_⟩
  unfold takesShort
  rw [stays.cpu, cpu]
  have stretches : Stretches s s' m tree index ↔ (a.isByteSized = true ∧ a'.isByteSized = false)
      ∧ s.cpu.has m (Asm.directModes index).1 = true ∧ s.cpu.has m (Asm.directModes index).2 = true := by
    rw [settles.stretches_iff]
    constructor
    · rintro ⟨form, ⟨b, found, before⟩, ⟨b', found', after⟩, short, long⟩
      cases value.symm.trans found
      cases value'.symm.trans found'
      exact ⟨⟨form, before, after⟩, short, long⟩
    · rintro ⟨⟨form, before, after⟩, short, long⟩
      exact ⟨form, ⟨a, value, before⟩, ⟨a', value', after⟩, short, long⟩
  rw [stretches]
  cases s.cpu.has m (Asm.directModes index).1 <;> cases s.cpu.has m (Asm.directModes index).2 <;>
    cases a.isByteSized <;> cases a'.isByteSized <;> decide

/-- A branch to a target that is not known takes the longest form, and no branch goes to a number. -/
theorem branch_settles (more : KnowsMore s s') (stays : Stays s u) (stays' : Stays s' u')
    (value : tree.eval s.valueOf s.start = .ok a) (value' : tree.eval s'.valueOf s'.start = .ok a') {op : UInt8}
    (run : Asm.branch op a pos u = .ok () t) (run' : Asm.branch op a' pos u' = .ok () t') :
    ∃ n n', Emits n u t ∧ Emits n' u' t' ∧ n' ≤ n + 1 ∧ (n < n' ↔ Stretches s s' m tree index) := by
  have settles : tree.Settles a a' := Expression.Tree.settles_eval more.names value (more.start ▸ value')
  obtain ⟨r, length, decided, emits⟩ := emits_branch run
  obtain ⟨r', length', decided', emits'⟩ := emits_branch run'
  have options : u'.options = u.options := by rw [stays.options, stays'.options, more.options]
  rw [options] at decided' emits'
  have shorter : branchLength (longForm u.options op) r' ≤ branchLength (longForm u.options op) r := by
    obtain unknown | rfl := settles.unknown_or_eq
    · cases (estimate_unknown unknown).symm.trans decided
      cases r' with
      | short => exact two_le_longForm u.options op
      | far | unknown => exact Nat.le_refl _
    · have same := estimate_unlogged (stays.lastReachLog.trans more.log) (stays'.lastReachLog.trans more.log')
        (more.here_of_stays stays stays') decided decided'
      exact Nat.le_of_eq (congrArg _ same)
  refine ⟨_, _, emits, emits', by omega, iff_of_false (by omega) ?_⟩
  rintro ⟨-, -, ⟨b, found, number, -⟩, -, -⟩
  cases value'.symm.trans found
  exact estimate_number number decided'

/-- The length of an instruction whose operand is not a direct address. -/
def formLength {α : Type} (cpu : Cpu) (m : Mnemonic) : Operand α → Nat
  | .none | .accumulator => 1
  | .immediate _ | .direct _ _ | .indirectIndexed _ => 2
  | .indirect _ => if cpu.has m .indirect then 3 else 2
  | .indexedIndirect _ => if cpu.has m .absoluteIndexedIndirect then 3 else 2

/-- An instruction whose operand is no direct address is as long as its form says. -/
theorem emits_encode {o : Operand Address} (other : ∀ a index, o ≠ .direct a index)
    (run : Asm.encode m o pos s = .ok () t) : Emits (formLength s.cpu m o) s t := by
  obtain ⟨_, _, asked, run⟩ := exists_of_bind_eq_ok run
  cases asked
  dsimp only at run
  cases o with
  | none =>
    dsimp only at run
    split at run
    · exact emits_emitOpcode run
    · split at run
      · exact emits_emitOpcode run
      · cases run
  | accumulator =>
    dsimp only at run
    split at run
    · exact emits_emitOpcode run
    · cases run
  | immediate a => exact emits_emitWithByte run
  | direct a index => exact (other a index rfl).elim
  | indirect a | indexedIndirect a =>
    dsimp only [formLength] at run ⊢
    split at run
    · rename_i pointer
      rw [if_pos pointer]
      exact emits_emitWithPointer run
    · rename_i zeroPage
      rw [if_neg zeroPage]
      exact emits_emitWithByte run
  | indirectIndexed a => exact emits_emitWithByte run

/-- Where more is known, an instruction is longer by one byte at most, and this if and only if its operand stretches.
All but direct operands keep their length. -/
theorem encode_settles (more : KnowsMore s s') (stays : Stays s u) (stays' : Stays s' u') {o o' : Operand Address}
    {trees : Operand Expression.Tree} (values : o.Relates (fun a tree => tree.eval s.valueOf s.start = .ok a) trees)
    (values' : o'.Relates (fun a tree => tree.eval s'.valueOf s'.start = .ok a) trees)
    (run : Asm.encode m o pos u = .ok () t) (run' : Asm.encode m o' pos u' = .ok () t') :
    ∃ n n', Emits n u t ∧ Emits n' u' t' ∧ n' ≤ n + 1
      ∧ (n < n' ↔ ∃ tree index, trees = .direct tree index ∧ Stretches s s' m tree index) := by
  have cpu : u'.cpu = u.cpu := by rw [stays.cpu, stays'.cpu, more.cpu]
  by_cases direct : ∃ tree index, trees = .direct tree index
  · obtain ⟨tree, index, rfl⟩ := direct
    have only : (∃ tree' index', Operand.direct tree index = .direct tree' index' ∧ Stretches s s' m tree' index') ↔
        Stretches s s' m tree index := by
      constructor
      · rintro ⟨_, _, ⟨⟩, h⟩
        exact h
      · exact fun h => ⟨_, _, rfl, h⟩
    rw [only]
    cases values with
    | direct value =>
      cases values' with
      | direct value' =>
        obtain ⟨_, _, asked, run⟩ := exists_of_bind_eq_ok run
        obtain ⟨_, _, asked', run'⟩ := exists_of_bind_eq_ok run'
        cases asked
        cases asked'
        dsimp only at run run'
        rw [cpu] at run'
        cases index with
        | none =>
          cases relative : u.cpu.opcode? m .relative with
          | some op =>
            rw [relative] at run run'
            exact branch_settles more stays stays' value value' run run'
          | none =>
            rw [relative] at run run'
            exact emitDirect_settles more stays stays' value value' run run'
        | x | y => exact emitDirect_settles more stays stays' value value' run run'
  · have other {α : Type} {R : α → Expression.Tree → Prop} {o : Operand α} (h : o.Relates R trees) (a : α) (index : Index) :
        o ≠ .direct a index := by
      rintro rfl
      cases h
      exact direct ⟨_, _, rfl⟩
    have length {α : Type} {R : α → Expression.Tree → Prop} {o : Operand α} (h : o.Relates R trees) (cpu : Cpu) :
        formLength cpu m o = formLength cpu m trees := by cases h <;> rfl
    refine ⟨_, _, emits_encode (other values) run, emits_encode (other values') run', ?_, iff_of_false ?_ ?_⟩
    · rw [length values, length values', cpu]
      exact Nat.le_succ _
    · rw [length values, length values', cpu]
      exact Nat.lt_irrefl _
    · rintro ⟨tree, index, same, -⟩
      exact direct ⟨tree, index, same⟩

end

/-- Between two states of which the second knows more names, an instruction that assembles in both gets no longer, but
for one byte where a byte of an unknown address has a sign or complement in front and turns out to be a number that
does not fit the zero page. -/
theorem instruction_not_longer {s' t' : Assembler} (more : KnowsMore s s') (run : Asm.instruction m pos s = .ok () t)
    (run' : Asm.instruction m pos s' = .ok () t') :
    ∃ n n', Emits n s t ∧ Emits n' s' t' ∧ n' ≤ n + 1
      ∧ (n < n' ↔ ∃ tree index rest, Operand.read (Expression.Tree.scope s.tokens) = .ok (.direct tree index) rest
          ∧ Stretches s s' m tree index) := by
  obtain ⟨o, u, reads, encodes⟩ := exists_of_bind_eq_ok run
  obtain ⟨o', u', reads', encodes'⟩ := exists_of_bind_eq_ok run'
  obtain ⟨trees, rest, plants, values, stays⟩ := reads_operand more.sound reads
  obtain ⟨trees', rest', plants', values', stays'⟩ := reads_operand more.sound' reads'
  rw [more.tokens] at plants'
  cases plants.symm.trans plants'
  obtain ⟨n, n', emits, emits', most, stretches⟩ := encode_settles more stays stays' values values' encodes encodes'
  refine ⟨n, n', emits.of_eq stays.segments.symm stays.current.symm, emits'.of_eq stays'.segments.symm stays'.current.symm,
    most, stretches.trans ?_⟩
  constructor
  · rintro ⟨tree, index, rfl, h⟩
    exact ⟨tree, index, rest, plants, h⟩
  · rintro ⟨tree, index, rest', found, h⟩
    cases plants.symm.trans found
    exact ⟨tree, index, rfl, h⟩

end Instruction

/-- At an operand, before any name is known. -/
def atOperand (text : String) : Assembler :=
  { (new .mos6502 {} {}).prepared with tokens := { top := .ofText 0 text } }

/-- At the same operand, with a number for `x`. -/
def atOperandKnown (text : String) (v : UInt16) : Assembler :=
  assign { atOperand text with identifiers := ⟨(∅ : Std.ExtTreeMap String SymbolId compare).insert "x" 1⟩ } 1 "x"
    (.constant v)

theorem knowsMore_atOperand (text : String) (v : UInt16) : KnowsMore (atOperand text) (atOperandKnown text v) := by
  have sound : (atOperand text).Sound := (isNew_new .mos6502 {} {}).prepared.1.act (.read _ _ : Action [] _ _)
  have numbered := sound.act (.intern (show (atOperand text).identifiers.intern "x" = .ok (1, _) from rfl) : Action [] _ _)
  refine ⟨sound, numbered.assign (fun _ => ?_) (fun high => ?_) rfl ?_, rfl, rfl, rfl, rfl, rfl, rfl, rfl, fun name => .inr ?_⟩
  · exact Std.ExtTreeMap.getElem?_insert_self
  · exact absurd high (by decide)
  · exact (by decide : Definition.unchanged ≠ .duplicate)
  · exact ⟨rfl, rfl⟩

/-- An instruction that assembles, with a result that passes a check. -/
theorem exists_instruction (m : Mnemonic) (pos : Position) (s : Assembler) (p : Assembler → Bool)
    (h : (match Asm.instruction m pos s with
      | .ok _ t => p t
      | .error _ _ => false) = true) : ∃ t, Asm.instruction m pos s = .ok () t ∧ p t = true := by
  split at h
  · exact ⟨_, ‹_›, h⟩
  · cases h

/-- An unknown operand is taken as a word, and as a byte once it is known to be one. -/
theorem instruction_not_longer_sum :
    ∃ t t' n n', Asm.instruction .lda ⟨0, 1, 1⟩ (atOperand "x+1\n") = .ok () t
      ∧ Asm.instruction .lda ⟨0, 1, 1⟩ (atOperandKnown "x+1\n" 5) = .ok () t'
      ∧ t.segments.code = ⟨#[0xad, 0, 0]⟩ ∧ t'.segments.code = ⟨#[0xa5, 6]⟩
      ∧ Emits n (atOperand "x+1\n") t ∧ Emits n' (atOperandKnown "x+1\n" 5) t' ∧ n' ≤ n := by
  obtain ⟨t, run, code⟩ := exists_instruction .lda ⟨0, 1, 1⟩ (atOperand "x+1\n")
    (fun t => t.segments.code == ⟨#[0xad, 0, 0]⟩) (by decide +kernel)
  obtain ⟨t', run', code'⟩ := exists_instruction .lda ⟨0, 1, 1⟩ (atOperandKnown "x+1\n" 5)
    (fun t => t.segments.code == ⟨#[0xa5, 6]⟩) (by decide +kernel)
  obtain ⟨n, n', emits, emits', -, stretches⟩ := instruction_not_longer (knowsMore_atOperand _ 5) run run'
  refine ⟨t, t', n, n', run, run', beq_iff_eq.1 code, beq_iff_eq.1 code', emits, emits', Nat.not_lt.1 fun longer => ?_⟩
  have plain : (match Operand.read (Expression.Tree.scope (atOperand "x+1\n").tokens) with
      | .ok (.direct tree _) _ => tree.turnsByte
      | _ => false) = false := by decide +kernel
  obtain ⟨tree, index, rest, reads, h⟩ := stretches.1 longer
  rw [reads] at plain
  cases h.form.symm.trans plain

/-- The byte counts as short until it is known; its sign then makes it a word. -/
theorem negated_byte_gets_longer :
    KnowsMore (atOperand "-<x\n") (atOperandKnown "-<x\n" 5)
      ∧ ∃ t t', Asm.instruction .lda ⟨0, 1, 1⟩ (atOperand "-<x\n") = .ok () t
        ∧ Asm.instruction .lda ⟨0, 1, 1⟩ (atOperandKnown "-<x\n" 5) = .ok () t'
        ∧ t.diagnostics.isEmpty = true ∧ t'.diagnostics.isEmpty = true
        ∧ t.segments.code = ⟨#[0xa5, 0]⟩ ∧ t'.segments.code = ⟨#[0xad, 0xfb, 0xff]⟩ := by
  obtain ⟨t, run, checked⟩ := exists_instruction .lda ⟨0, 1, 1⟩ (atOperand "-<x\n")
    (fun t => t.diagnostics.isEmpty && t.segments.code == ⟨#[0xa5, 0]⟩) (by decide +kernel)
  obtain ⟨t', run', checked'⟩ := exists_instruction .lda ⟨0, 1, 1⟩ (atOperandKnown "-<x\n" 5)
    (fun t => t.diagnostics.isEmpty && t.segments.code == ⟨#[0xad, 0xfb, 0xff]⟩) (by decide +kernel)
  rw [Bool.and_eq_true, beq_iff_eq] at checked checked'
  exact ⟨knowsMore_atOperand _ 5, t, t', run, run', checked.1, checked'.1, checked.2, checked'.2⟩

end Assembler

end Asm65
