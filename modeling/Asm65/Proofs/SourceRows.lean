import Asm65.Proofs.ForwardReference
import Asm65.Proofs.Relaxation
import Asm65.Proofs.StructuredBlock

/-!
# Rows of a program

A program of labels, instructions without operand, numbers, storage, branches and structured blocks, as rows of its
source, and the pieces of code that it lays out. `Spells` says which tokens spell which rows. The pieces, with the
numbers of their labels, follow from the rows alone: `plan` needs no address.
-/

namespace Asm65
set_option autoImplicit false

/-- What a row says after its labels. -/
inductive Body where
  /-- An instruction without operand, numbers or storage. -/
  | bytes (n : Nat)
  | branch (pos : Position) (op : UInt8) (target : String)
  | ifBlock (pos : Position)
  | elseIf (pos : Position)
  | elsePart
  | endIf
  | doBlock (pos : Position)
  | whileTest (pos : Position)
  | loopEnd

/-- A line that is not empty. -/
structure Row where
  labels : List String
  body : Option Body

/-! ### Spelling -/

/-- Numbers with commas between them, and how many they are. -/
inductive Numbers : List Token → Nat → List Token → Prop where
  | one (n : Nat) (pos : Position) (rest : List Token) : Numbers (⟨.number n, pos⟩ :: rest) 1 rest
  | more (n : Nat) (pos pos' : Position) {k : Nat} {tokens rest : List Token} (h : Numbers tokens k rest) :
    Numbers (⟨.number n, pos⟩ :: ⟨.punct .comma, pos'⟩ :: tokens) (k + 1) rest

/-- The branch instruction that a word names. -/
def branchOpcode? (word : String) : Option UInt8 := (Cpu.mos6502.mnemonic? word).bind (Cpu.mos6502.opcode? · .relative)

/-- The first tokens spell a body, and others follow. -/
inductive Body.Reads : List Token → Body → List Token → Prop where
  | implied (word : String) (pos : Position) (rest : List Token) :
    Reads (⟨.identifier word, pos⟩ :: rest) (.bytes 1) rest
  | branch {word : String} {op : UInt8} (h : branchOpcode? word = some op) (target : String) (pos pos' : Position)
    (rest : List Token) :
    Reads (⟨.identifier word, pos⟩ :: ⟨.identifier target, pos'⟩ :: rest) (.branch pos op target) rest
  | bytes (pos : Position) {k : Nat} {tokens rest : List Token} (h : Numbers tokens k rest) :
    Reads (⟨.keyword .bytes, pos⟩ :: tokens) (.bytes k) rest
  | words (pos : Position) {k : Nat} {tokens rest : List Token} (h : Numbers tokens k rest) :
    Reads (⟨.keyword .words, pos⟩ :: tokens) (.bytes (2 * k)) rest
  | reserve (n : Nat) (pos pos' : Position) (rest : List Token) :
    Reads (⟨.keyword .reserve, pos⟩ :: ⟨.number n, pos'⟩ :: rest) (.bytes (UInt16.ofNat n).toNat) rest
  | fill (n value : Nat) (pos pos' pos₁ pos₂ : Position) (rest : List Token) :
    Reads (⟨.keyword .reserve, pos⟩ :: ⟨.number n, pos'⟩ :: ⟨.punct .comma, pos₁⟩ :: ⟨.number value, pos₂⟩ :: rest)
      (.bytes (UInt16.ofNat n).toNat) rest
  | ifBlock (word : String) (pos pos' : Position) (rest : List Token) :
    Reads (⟨.keyword .ifBlock, pos⟩ :: ⟨.identifier word, pos'⟩ :: rest) (.ifBlock pos) rest
  | elseIf (word : String) (pos pos' : Position) (rest : List Token) :
    Reads (⟨.keyword .elseIf, pos⟩ :: ⟨.identifier word, pos'⟩ :: rest) (.elseIf pos) rest
  | elsePart (pos : Position) (rest : List Token) : Reads (⟨.keyword .elsePart, pos⟩ :: rest) .elsePart rest
  | endIf (pos : Position) (rest : List Token) : Reads (⟨.keyword .endIf, pos⟩ :: rest) .endIf rest
  | doBlock (pos : Position) (rest : List Token) : Reads (⟨.keyword .doBlock, pos⟩ :: rest) (.doBlock pos) rest
  | whileTest (word : String) (pos pos' : Position) (rest : List Token) :
    Reads (⟨.keyword .whileTest, pos⟩ :: ⟨.identifier word, pos'⟩ :: rest) (.whileTest pos) rest
  | loopEnd (pos : Position) (rest : List Token) : Reads (⟨.keyword .loopEnd, pos⟩ :: rest) .loopEnd rest

/-- The first tokens spell a row, and others follow. -/
inductive Row.Reads : List Token → Row → List Token → Prop where
  | body {tokens rest : List Token} {b : Body} (h : b.Reads tokens rest) : Reads tokens ⟨[], some b⟩ rest
  | bare (name : String) (pos pos' : Position) {last : Token} (rest : List Token) (h : last.endsStatement = true) :
    Reads (⟨.identifier name, pos⟩ :: ⟨.punct .colon, pos'⟩ :: last :: rest) ⟨[name], none⟩ (last :: rest)
  | label (name : String) (pos pos' : Position) {first : Token} {tokens rest : List Token} {row : Row}
    (starts : first.endsStatement = false) (h : Reads (first :: tokens) row rest) :
    Reads (⟨.identifier name, pos⟩ :: ⟨.punct .colon, pos'⟩ :: first :: tokens) ⟨name :: row.labels, row.body⟩ rest

/-- The end of a statement, and what is left to read after it: the end of the file stays. -/
inductive Stops : Token → List Token → List Token → Prop where
  | line (pos : Position) (rest : List Token) : Stops ⟨.endOfLine, pos⟩ rest rest
  | file (pos : Position) (rest : List Token) : Stops ⟨.endOfFile, pos⟩ rest (⟨.endOfFile, pos⟩ :: rest)

theorem Stops.ends {last : Token} {rest after : List Token} (stops : Stops last rest after) :
    last.endsStatement = true := by
  cases stops <;> rfl

/-- Tokens up to the end of a file spell rows, with empty lines anywhere. -/
inductive Spells : List Token → List Row → Prop where
  | done (pos : Position) : Spells [⟨.endOfFile, pos⟩] []
  | blank (pos : Position) {tokens : List Token} {rows : List Row} (h : Spells tokens rows) :
    Spells (⟨.endOfLine, pos⟩ :: tokens) rows
  | row {first last : Token} {tokens rest after : List Token} {row : Row} {rows : List Row}
    (starts : first.endsStatement = false) (reads : row.Reads (first :: tokens) (last :: rest))
    (stops : Stops last rest after) (h : Spells after rows) : Spells (first :: tokens) (row :: rows)

theorem Stops.length_le {last : Token} {rest after : List Token} (stops : Stops last rest after) :
    after.length ≤ rest.length + 1 := by
  cases stops with
  | line => exact Nat.le_succ _
  | file => exact Nat.le_refl _

/-! What is read is in front of the end of the file. -/

theorem Numbers.exists_append {tokens rest : List Token} {k : Nat} (h : Numbers tokens k rest) :
    ∃ read, tokens = read ++ rest ∧ ∀ token ∈ read, token.lexeme ≠ .endOfFile := by
  induction h with
  | one n pos rest => exact ⟨[_], rfl, by simp⟩
  | more n pos pos' h ih =>
    obtain ⟨read, rfl, inside⟩ := ih
    exact ⟨_ :: _ :: read, rfl, by simpa using inside⟩

theorem Body.Reads.exists_append {tokens rest : List Token} {body : Body} (h : body.Reads tokens rest) :
    ∃ first read, tokens = first :: read ++ rest ∧ ∀ token ∈ first :: read, token.lexeme ≠ .endOfFile := by
  cases h with
  | bytes pos h | words pos h =>
    obtain ⟨read, rfl, inside⟩ := h.exists_append
    exact ⟨_, read, rfl, by simpa using inside⟩
  | implied | elsePart | endIf | doBlock | loopEnd => exact ⟨_, [], rfl, by simp⟩
  | branch | reserve | ifBlock | elseIf | whileTest => exact ⟨_, [_], rfl, by simp⟩
  | fill => exact ⟨_, [_, _, _], rfl, by simp⟩

theorem Row.Reads.exists_append {tokens rest : List Token} {row : Row} (h : row.Reads tokens rest) :
    ∃ first read, tokens = first :: read ++ rest ∧ ∀ token ∈ first :: read, token.lexeme ≠ .endOfFile := by
  induction h with
  | body h => exact h.exists_append
  | bare => exact ⟨_, [_], rfl, by simp⟩
  | label name pos pos' starts h ih =>
    obtain ⟨first, read, same, inside⟩ := ih
    rw [same]
    exact ⟨_, _ :: first :: read, rfl, by simpa using inside⟩

theorem Row.Reads.length_lt {tokens rest : List Token} {row : Row} (h : row.Reads tokens rest) :
    rest.length < tokens.length := by
  obtain ⟨first, read, rfl, -⟩ := h.exists_append
  rw [List.length_append, List.length_cons]
  omega

/-- Rows are spelled up to the end of the file, which comes once. -/
theorem Spells.exists_append {tokens : List Token} {rows : List Row} (h : Spells tokens rows) :
    ∃ read pos, tokens = read ++ [⟨.endOfFile, pos⟩] ∧ ∀ token ∈ read, token.lexeme ≠ .endOfFile := by
  induction h with
  | done pos => exact ⟨[], pos, rfl, by simp⟩
  | blank pos h ih =>
    obtain ⟨read, pos', rfl, inside⟩ := ih
    exact ⟨_ :: read, pos', rfl, by simpa using inside⟩
  | row starts reads stops h ih =>
    obtain ⟨first, read, same, inside⟩ := reads.exists_append
    rw [same]
    cases stops with
    | line pos =>
      obtain ⟨others, pos', rfl, inside'⟩ := ih
      refine ⟨(first :: read) ++ ⟨.endOfLine, pos⟩ :: others, pos', by simp, fun token mem => ?_⟩
      obtain before | after := List.mem_append.1 mem
      · exact inside token before
      · obtain rfl | after := List.mem_cons.1 after
        · simp
        · exact inside' token after
    | file pos =>
      cases h with
      | done => exact ⟨first :: read, pos, rfl, inside⟩
      | row starts => cases starts

/-- The end of a loop spells a row of its own. -/
theorem Spells.of_loopEnd {first : Token} {tokens : List Token} {rows : List Row} (h : Spells (first :: tokens) rows)
    (loopEnd : first.lexeme = .keyword .loopEnd) : ∃ last rest after more, tokens = last :: rest ∧ Stops last rest after
      ∧ Spells after more ∧ rows = ⟨[], some .loopEnd⟩ :: more := by
  cases h with
  | done | blank => cases loopEnd
  | row starts reads stops h =>
    cases reads with
    | bare | label => cases loopEnd
    | body reads =>
      cases reads <;> cases loopEnd
      exact ⟨_, _, _, _, rfl, stops, h, rfl⟩

theorem Spells.loopEnd {first : Token} {tokens : List Token} {more : List Row}
    (h : Spells (first :: tokens) (⟨[], some .loopEnd⟩ :: more)) (line : first.lexeme ≠ .endOfLine) :
    first.lexeme = .keyword .loopEnd := by
  cases h with
  | blank => exact (line rfl).elim
  | row starts reads stops h =>
    cases reads with
    | body reads =>
      cases reads
      rfl

/-! ### Pieces -/

/-- The open blocks and the number of the next label. -/
structure Frame where
  blocks : BlockStack
  next : Nat

/-- Hands out a label. -/
def Frame.allot (f : Frame) : Option (SymbolId × Frame) :=
  if f.next < 0x10000 then some (.ofNat f.next, { f with next := f.next + 1 }) else none

/-- The labels of a block that a test at the end of the loop would keep to itself. -/
def Block.reserved : Block → List SymbolId
  | .loop beginId _ endId false => [beginId, endId]
  | _ => []

section Plan

variable (number : String → SymbolId) (options : Options)

/-- The pieces of a body, and the blocks after it. -/
def Body.plan (f : Frame) : Body → Option (List Piece × Frame)
  | .bytes n => some ([.fixed n], f)
  | .branch pos op target => some ([.branch pos (number target) (Assembler.longForm options op)], f)
  | .ifBlock pos => do
    let (elseId, f) ← f.allot
    let (endId, f) ← f.allot
    some ([.branch pos elseId 5], { f with blocks := (.cond (some elseId) endId, pos) :: f.blocks })
  | .elseIf pos =>
    match f.blocks with
    | (.cond (some elseId) endId, opened) :: outer => do
      let (nextElse, f) ← f.allot
      some ([.fixed 3, .label elseId, .branch pos nextElse 5],
        { f with blocks := (.cond (some nextElse) endId, opened) :: outer })
    | _ => none
  | .elsePart =>
    match f.blocks with
    | (.cond (some elseId) endId, opened) :: outer =>
      some ([.fixed 3, .label elseId], { f with blocks := (.cond none endId, opened) :: outer })
    | _ => none
  | .endIf =>
    match f.blocks with
    | (.cond elseId endId, _) :: outer =>
      some ((Block.cond elseId endId).pending.map .label, { f with blocks := outer })
    | _ => none
  | .doBlock pos => do
    let (beginId, f) ← f.allot
    let (repeatId, f) ← f.allot
    let (endId, f) ← f.allot
    some ([.label repeatId], { f with blocks := (.loop beginId repeatId endId false, pos) :: f.blocks })
  | .whileTest pos =>
    match f.blocks with
    | (.loop beginId repeatId endId false, opened) :: outer =>
      some ([.branch pos endId 5, .label beginId],
        { f with blocks := (.loop beginId repeatId endId true, opened) :: outer })
    | _ => none
  | .loopEnd =>
    match f.blocks with
    | (.loop beginId repeatId endId tested, _) :: outer =>
      some (.fixed 3 :: (Block.loop beginId repeatId endId tested).pending.map .label, { f with blocks := outer })
    | _ => none

/-- The pieces of labels. -/
def labelPieces (labels : List String) : List Piece := labels.map fun name => .label (number name)

/-- The pieces of what a row says after its labels. -/
def Row.plan (f : Frame) (row : Row) : Option (List Piece × Frame) :=
  match row.body with
  | some body => body.plan number options f
  | none => some ([], f)

/-- The pieces of rows. A test and the end of its loop right after it are one piece. -/
def plan (f : Frame) : List Row → Option (List Piece)
  | [] => some []
  | ⟨labels, some (.whileTest pos)⟩ :: ⟨[], some .loopEnd⟩ :: rows =>
    match f.blocks with
    | (.loop beginId repeatId endId false, _) :: outer =>
      (plan { f with blocks := outer } rows).map fun ps =>
        labelPieces number labels ++ .turn pos repeatId beginId endId :: ps
    | _ => none
  | row :: rows =>
    (row.plan number options f).bind fun (ps, f) => (plan f rows).map fun more =>
      labelPieces number row.labels ++ (ps ++ more)

end Plan

/-- A test with the end of its loop in the row after it. -/
def TurnsBack (row : Row) (rows : List Row) : Prop :=
  ∃ pos more, row.body = some (.whileTest pos) ∧ rows = ⟨[], some .loopEnd⟩ :: more

theorem plan_cons {number : String → SymbolId} {options : Options} {f : Frame} {row : Row} {rows : List Row}
    (alone : ¬ TurnsBack row rows) : plan number options f (row :: rows) =
      (row.plan number options f).bind fun (ps, f) => (plan number options f rows).map fun more =>
        labelPieces number row.labels ++ (ps ++ more) := by
  rw [plan]
  rintro labels pos more rfl rfl
  exact alone ⟨pos, more, rfl, rfl⟩

theorem plan_turn {number : String → SymbolId} {options : Options} {blocks outer : BlockStack} {next : Nat}
    {beginId repeatId endId : SymbolId} {pos opened : Position} {labels : List String} {rows : List Row}
    (stack : blocks = (.loop beginId repeatId endId false, opened) :: outer) :
    plan number options ⟨blocks, next⟩ (⟨labels, some (.whileTest pos)⟩ :: ⟨[], some .loopEnd⟩ :: rows) =
      (plan number options ⟨outer, next⟩ rows).map fun ps =>
        labelPieces number labels ++ .turn pos repeatId beginId endId :: ps := by
  rw [plan, stack]

theorem of_plan_whileTest {number : String → SymbolId} {options : Options} {f f' : Frame} {pos : Position}
    {ps : List Piece} (h : Body.plan number options f (.whileTest pos) = some (ps, f')) :
    ∃ beginId repeatId endId opened outer, f.blocks = (.loop beginId repeatId endId false, opened) :: outer
      ∧ ps = [.branch pos endId 5, .label beginId]
      ∧ f' = ⟨(.loop beginId repeatId endId true, opened) :: outer, f.next⟩ := by
  simp only [Body.plan] at h
  split at h
  · rename_i beginId repeatId endId opened outer stack
    cases h
    exact ⟨beginId, repeatId, endId, opened, outer, stack, rfl, rfl⟩
  · cases h

/-! ### Labels of pieces -/

/-- The labels of open blocks that tests still to come may keep to themselves. -/
def Frame.reserved (f : Frame) : List SymbolId := f.blocks.flatMap (·.1.reserved)

theorem Block.reserved_subset_labels (b : Block) : b.reserved ⊆ b.labels := by
  cases b with
  | cond elseId endId => exact List.nil_subset _
  | loop beginId repeatId endId tested => cases tested <;> simp [reserved, labels]

theorem Frame.mem_labels_of_reserved {f : Frame} {id : SymbolId} (h : id ∈ f.reserved) :
    id ∈ BlockStack.labels f.blocks := by
  obtain ⟨b, mem, own⟩ := List.mem_flatMap.1 h
  exact List.mem_flatMap.2 ⟨b, mem, b.1.reserved_subset_labels own⟩

/-- A label that pieces after `f` may refer to. -/
def Frame.Knows (f : Frame) (id : SymbolId) : Prop :=
  id.toNat < autoLabelBase ∨ id ∈ BlockStack.labels f.blocks ∨ f.next ≤ id.toNat

/-- Pieces that come after `f`. -/
structure Confined (f : Frame) (ps : List Piece) : Prop extends Separate ps where
  reserved {id : SymbolId} (h : id ∈ ps.flatMap Piece.own) : id ∈ f.reserved ∨ f.next ≤ id.toNat
  known {id : SymbolId} (h : id ∈ ps.flatMap Piece.shared) : f.Knows id

/-- Pieces that lead from `f` to `f'` and keep no label to themselves. -/
structure Advances (f : Frame) (ps : List Piece) (f' : Frame) : Prop where
  own : ps.flatMap Piece.own = []
  roomy : ∀ p ∈ ps, p.Roomy
  next : f.next ≤ f'.next
  reserved {id : SymbolId} (h : id ∈ f'.reserved) : id ∈ f.reserved ∨ f.next ≤ id.toNat
  labels {id : SymbolId} (h : id ∈ BlockStack.labels f'.blocks) : id ∈ BlockStack.labels f.blocks ∨ f.next ≤ id.toNat
  known {id : SymbolId} (h : id ∈ ps.flatMap Piece.shared) : f.Knows id ∧ id ∉ f'.reserved ∧ id.toNat < f'.next

/-- Pieces in front, which keep no label to themselves, leave later pieces confined. -/
theorem Confined.prepend {f f' : Frame} {qs ps : List Piece} (advances : Advances f qs f') (h : Confined f' ps) :
    Confined f (qs ++ ps) where
  roomy p mem := (List.mem_append.1 mem).elim (advances.roomy p) (h.roomy p)
  once := by
    rw [List.flatMap_append, advances.own]
    exact h.once
  apart {id} mem shared := by
    rw [List.flatMap_append, advances.own] at mem
    rw [List.flatMap_append] at shared
    obtain before | after := List.mem_append.1 shared
    · obtain ⟨-, free, below⟩ := advances.known before
      obtain kept | new := h.reserved mem
      · exact free kept
      · omega
    · exact h.apart mem after
  reserved {id} mem := by
    rw [List.flatMap_append, advances.own] at mem
    obtain kept | new := h.reserved mem
    · exact advances.reserved kept
    · exact .inr (Nat.le_trans advances.next new)
  known {id} mem := by
    rw [List.flatMap_append] at mem
    obtain before | after := List.mem_append.1 mem
    · exact (advances.known before).1
    · obtain low | block | new := h.known after
      · exact .inl low
      · exact .inr (advances.labels block)
      · exact .inr (.inr (Nat.le_trans advances.next new))

section Nested

open BlockStack (Nested)

variable {number : String → SymbolId} {options : Options} {f f' : Frame} {symbols : SymbolTable} {ps : List Piece}

theorem Frame.of_allot {id : SymbolId} (h : f.allot = some (id, f')) :
    id.toNat = f.next ∧ f' = { f with next := f.next + 1 } := by
  unfold allot at h
  split at h
  · rename_i room
    cases h
    exact ⟨UInt16.toNat_ofNat_of_lt' room, rfl⟩
  · cases h

theorem advances_labels (nested : Nested f.blocks f.next symbols) (low : ∀ name, (number name).toNat < autoLabelBase)
    (labels : List String) : Advances f (labelPieces number labels) f where
  own := by simp [labelPieces, Piece.own]
  roomy := by simp [labelPieces, Piece.Roomy]
  next := Nat.le_refl _
  reserved := .inl
  labels := .inl
  known {id} h := by
    have named : id.toNat < autoLabelBase := by
      simp only [labelPieces, List.flatMap_map, Piece.shared, List.mem_flatMap, List.mem_singleton] at h
      obtain ⟨name, -, rfl⟩ := h
      exact low name
    refine ⟨.inl named, fun mem => ?_, Nat.lt_of_lt_of_le named nested.base⟩
    have high := (nested.range id (Frame.mem_labels_of_reserved mem)).1
    omega

/-- What happens to the innermost blocks does not concern those around them. -/
theorem advances_of_top (top top' : BlockStack) {outer : BlockStack} {n n' : Nat}
    (nested : Nested (top ++ outer) n symbols) (own : ps.flatMap Piece.own = []) (roomy : ∀ p ∈ ps, p.Roomy)
    (next : n ≤ n') (labels : ∀ id ∈ BlockStack.labels top', id ∈ BlockStack.labels top ∨ n ≤ id.toNat)
    (reserved : ∀ id ∈ Frame.reserved ⟨top', n'⟩, id ∈ Frame.reserved ⟨top, n⟩ ∨ n ≤ id.toNat)
    (shared : ∀ id ∈ ps.flatMap Piece.shared, id ∉ Frame.reserved ⟨top', n'⟩
      ∧ (id ∈ BlockStack.labels top ∨ n ≤ id.toNat ∧ id.toNat < n')) :
    Advances ⟨top ++ outer, n⟩ ps ⟨top' ++ outer, n'⟩ := by
  have all (inner : BlockStack) :
      BlockStack.labels (inner ++ outer) = BlockStack.labels inner ++ BlockStack.labels outer :=
    List.flatMap_append
  have nodup := nested.nodup
  rw [all, List.nodup_append] at nodup
  have kept {n n' : Nat} {id : SymbolId} {inner : BlockStack} (mem : id ∈ Frame.reserved ⟨inner ++ outer, n⟩) :
      id ∈ Frame.reserved ⟨inner, n'⟩ ∨ id ∈ Frame.reserved ⟨outer, n'⟩ := by
    rwa [Frame.reserved, List.flatMap_append, List.mem_append] at mem
  have below {id : SymbolId} (mem : id ∈ BlockStack.labels (top ++ outer)) : id.toNat < n := (nested.range id mem).2
  refine ⟨own, roomy, next, fun mem => ?_, fun {id} mem => ?_, fun {id} mem => ?_⟩
  · obtain inner | outside := kept mem
    · refine (reserved _ inner).imp_left fun inside => ?_
      exact List.mem_flatMap.2 ((List.mem_flatMap.1 inside).imp fun b h => ⟨List.mem_append_left _ h.1, h.2⟩)
    · exact .inl (List.mem_flatMap.2 ((List.mem_flatMap.1 outside).imp fun b h => ⟨List.mem_append_right _ h.1, h.2⟩))
  · rw [all, List.mem_append] at mem ⊢
    obtain inner | outside := mem
    · exact (labels id inner).imp_left .inl
    · exact .inl (.inr outside)
  · obtain ⟨free, inside⟩ := shared id mem
    refine ⟨?_, fun taken => ?_, ?_⟩
    · exact inside.elim (fun h => .inr (.inl (all top ▸ List.mem_append_left _ h))) fun h => .inr (.inr h.1)
    · obtain inner | outside := kept taken
      · exact free inner
      · have outside := Frame.mem_labels_of_reserved outside
        obtain inner | ⟨new, -⟩ := inside
        · exact nodup.2.2 id inner id outside rfl
        · have := below (all top ▸ List.mem_append_right _ outside)
          omega
    · obtain inner | ⟨-, new⟩ := inside
      · exact Nat.lt_of_lt_of_le (below (all top ▸ List.mem_append_left _ inner)) next
      · exact new

/-- Opening a block with new labels. -/
theorem advances_open {blocks : BlockStack} {b : Block} {pos : Position} {n n' : Nat} (nested : Nested blocks n symbols)
    (own : ps.flatMap Piece.own = []) (roomy : ∀ p ∈ ps, p.Roomy)
    (next : n ≤ n') (labels : ∀ id ∈ b.labels, n ≤ id.toNat)
    (shared : ∀ id ∈ ps.flatMap Piece.shared, id ∉ b.reserved ∧ n ≤ id.toNat ∧ id.toNat < n') :
    Advances ⟨blocks, n⟩ ps ⟨(b, pos) :: blocks, n'⟩ := by
  have one : Frame.reserved ⟨[(b, pos)], n'⟩ = b.reserved := List.append_nil _
  have all : BlockStack.labels [(b, pos)] = b.labels := List.append_nil _
  refine advances_of_top [] [(b, pos)] nested own roomy next ?_ ?_ ?_
  · exact fun id mem => .inr (labels id (all ▸ mem))
  · exact fun id mem => .inr (labels id (b.reserved_subset_labels (one ▸ mem)))
  · intro id mem
    rw [one]
    exact ⟨(shared id mem).1, .inr (shared id mem).2⟩

/-- Going on in a block, or closing it. -/
theorem advances_inside (top' : BlockStack) {b : Block} {pos : Position} {outer : BlockStack} {n n' : Nat}
    (nested : Nested ((b, pos) :: outer) n symbols) (own : ps.flatMap Piece.own = [])
    (roomy : ∀ p ∈ ps, p.Roomy) (next : n ≤ n')
    (labels : ∀ id ∈ BlockStack.labels top', id ∈ b.labels ∨ n ≤ id.toNat) (none : Frame.reserved ⟨top', n'⟩ = [])
    (shared : ∀ id ∈ ps.flatMap Piece.shared, id ∈ b.labels ∨ n ≤ id.toNat ∧ id.toNat < n') :
    Advances ⟨(b, pos) :: outer, n⟩ ps ⟨top' ++ outer, n'⟩ := by
  have all : BlockStack.labels [(b, pos)] = b.labels := List.append_nil _
  refine advances_of_top [(b, pos)] top' nested own roomy next ?_ ?_ ?_
  · rwa [all]
  · rw [none]
    exact fun id mem => (by cases mem)
  · rw [none, all]
    exact fun id mem => ⟨by simp, shared id mem⟩

/-- Closing a block with the labels that it still has to place. -/
theorem advances_close {b : Block} {pos : Position} {outer : BlockStack} {n : Nat}
    (nested : Nested ((b, pos) :: outer) n symbols) (own : ps.flatMap Piece.own = [])
    (roomy : ∀ p ∈ ps, p.Roomy) (shared : ∀ id ∈ ps.flatMap Piece.shared, id ∈ b.pending) :
    Advances ⟨(b, pos) :: outer, n⟩ ps ⟨outer, n⟩ := by
  refine advances_inside [] nested own roomy (Nat.le_refl n) (by simp [BlockStack.labels]) rfl fun id mem => ?_
  exact .inl (b.pending_subset_labels (shared id mem))

/-- What is planned for a body leads from the blocks before it to those after it and keeps no label to itself. Names
have numbers below those of labels. -/
theorem advances_plan (nested : Nested f.blocks f.next symbols) (low : ∀ name, (number name).toNat < autoLabelBase)
    {body : Body} (h : body.plan number options f = some (ps, f')) : Advances f ps f' := by
  obtain ⟨blocks, n⟩ := f
  cases body with
  | bytes n =>
    cases h
    exact ⟨rfl, by simp [Piece.Roomy], Nat.le_refl _, .inl, .inl, by simp [Piece.shared]⟩
  | branch pos op target =>
    cases h
    have named := advances_labels nested low [target]
    exact ⟨rfl, by simp [Piece.Roomy, Assembler.two_le_longForm], Nat.le_refl _, .inl, .inl, named.known⟩
  | ifBlock pos =>
    obtain ⟨⟨elseId, f₁⟩, first, h⟩ := Option.bind_eq_some_iff.1 h
    obtain ⟨⟨endId, f₂⟩, second, h⟩ := Option.bind_eq_some_iff.1 h
    obtain ⟨elseNew, rfl⟩ := Frame.of_allot first
    obtain ⟨endNew, rfl⟩ := Frame.of_allot second
    cases h
    dsimp only at elseNew endNew
    show Advances ⟨blocks, n⟩ _ ⟨_, n + 2⟩
    refine advances_open nested rfl (by simp [Piece.Roomy]) (by omega) ?_ ?_
    · intro id mem
      obtain rfl | rfl : id = elseId ∨ id = endId := by simpa [Block.labels] using mem
      · exact Nat.le_of_eq elseNew.symm
      · omega
    · intro id mem
      obtain rfl : id = elseId := by simpa [Piece.shared] using mem
      exact ⟨by simp [Block.reserved], by omega, by omega⟩
  | elseIf pos =>
    simp only [Body.plan] at h
    split at h
    · rename_i elseId endId opened outer
      obtain ⟨⟨nextElse, f₁⟩, first, h⟩ := Option.bind_eq_some_iff.1 h
      obtain ⟨new, rfl⟩ := Frame.of_allot first
      cases h
      dsimp only at new
      show Advances _ _ ⟨_, n + 1⟩
      refine advances_inside [_] nested rfl (by simp [Piece.Roomy]) (Nat.le_succ n) ?_ rfl ?_
      · intro id mem
        obtain rfl | rfl : id = nextElse ∨ id = endId := by simpa [Block.labels, BlockStack.labels] using mem
        · exact .inr (Nat.le_of_eq new.symm)
        · exact .inl (by simp [Block.labels])
      · intro id mem
        obtain rfl | rfl : id = elseId ∨ id = nextElse := by simpa [Piece.shared] using mem
        · exact .inl (by simp [Block.labels])
        · exact .inr ⟨by omega, by omega⟩
    · cases h
  | elsePart =>
    simp only [Body.plan] at h
    split at h
    · cases h
      refine advances_inside [_] nested rfl (by simp [Piece.Roomy]) (Nat.le_refl n) ?_ rfl ?_
      · simp [Block.labels, BlockStack.labels]
      · simp [Piece.shared, Block.labels]
    · cases h
  | endIf =>
    simp only [Body.plan] at h
    split at h
    · cases h
      exact advances_close nested (by simp [Piece.own]) (by simp [Piece.Roomy]) (by simp [Piece.shared])
    · cases h
  | doBlock pos =>
    obtain ⟨⟨beginId, f₁⟩, first, h⟩ := Option.bind_eq_some_iff.1 h
    obtain ⟨⟨repeatId, f₂⟩, second, h⟩ := Option.bind_eq_some_iff.1 h
    obtain ⟨⟨endId, f₃⟩, third, h⟩ := Option.bind_eq_some_iff.1 h
    obtain ⟨beginNew, rfl⟩ := Frame.of_allot first
    obtain ⟨repeatNew, rfl⟩ := Frame.of_allot second
    obtain ⟨endNew, rfl⟩ := Frame.of_allot third
    cases h
    dsimp only at beginNew repeatNew endNew
    show Advances ⟨blocks, n⟩ _ ⟨_, n + 3⟩
    refine advances_open nested rfl (by simp [Piece.Roomy]) (by omega) ?_ ?_
    · intro id mem
      obtain rfl | rfl | rfl : id = beginId ∨ id = repeatId ∨ id = endId := by simpa [Block.labels] using mem
      · exact Nat.le_of_eq beginNew.symm
      · omega
      · omega
    · intro id mem
      obtain rfl : id = repeatId := by simpa [Piece.shared] using mem
      have first : id ≠ beginId := fun same => by rw [same] at repeatNew; omega
      have last : id ≠ endId := fun same => by rw [same] at repeatNew; omega
      exact ⟨by simp [Block.reserved, first, last], by omega, by omega⟩
  | whileTest pos =>
    simp only [Body.plan] at h
    split at h
    · cases h
      refine advances_inside [_] nested rfl (by simp [Piece.Roomy]) (Nat.le_refl n) ?_ rfl ?_
      · simp [Block.labels, BlockStack.labels]
      · simp [Piece.shared, Block.labels]
    · cases h
  | loopEnd =>
    simp only [Body.plan] at h
    split at h
    · cases h
      exact advances_close nested (by simp [Piece.own]) (by simp [Piece.Roomy]) (by simp [Piece.shared])
    · cases h

/-- A test with the end of its loop in one piece keeps two labels of the loop to itself. The block is closed, so no
later piece knows them. -/
theorem Confined.turn {outer : BlockStack} {pos opened : Position} {beginId repeatId endId : SymbolId} {n : Nat}
    (nested : Nested ((.loop beginId repeatId endId false, opened) :: outer) n symbols) (h : Confined ⟨outer, n⟩ ps) :
    Confined ⟨(.loop beginId repeatId endId false, opened) :: outer, n⟩ (.turn pos repeatId beginId endId :: ps) := by
  have apart {id : SymbolId} (own : id ∈ Block.labels (.loop beginId repeatId endId false)) :
      id ∉ ps.flatMap Piece.own := by
    intro mem
    obtain kept | new := h.reserved mem
    · exact nested.apart own (Frame.mem_labels_of_reserved kept)
    · have := (nested.range id (List.mem_append_left _ own)).2
      exact Nat.not_lt.2 new this
  have free {id : SymbolId} (own : id ∈ Block.labels (.loop beginId repeatId endId false)) :
      id ∉ ps.flatMap Piece.shared := by
    intro mem
    obtain low | block | new := h.known mem
    · exact Nat.not_lt.2 (nested.high own) low
    · exact nested.apart own block
    · have := (nested.range id (List.mem_append_left _ own)).2
      exact Nat.not_lt.2 new this
  have distinct : (beginId ≠ repeatId ∧ beginId ≠ endId) ∧ repeatId ≠ endId := by
    simpa [Block.labels] using nested.distinct
  have begins : beginId ∈ Block.labels (.loop beginId repeatId endId false) := by simp [Block.labels]
  have repeats : repeatId ∈ Block.labels (.loop beginId repeatId endId false) := by simp [Block.labels]
  have ends : endId ∈ Block.labels (.loop beginId repeatId endId false) := by simp [Block.labels]
  refine ⟨⟨?_, ?_, ?_⟩, ?_, ?_⟩
  · exact List.forall_mem_cons.2 ⟨trivial, h.roomy⟩
  · show (beginId :: endId :: ps.flatMap Piece.own).Nodup
    rw [List.nodup_cons, List.nodup_cons, List.mem_cons]
    exact ⟨fun mem => mem.elim distinct.1.2 (apart begins), apart ends, h.once⟩
  · intro id own shared
    obtain rfl | rfl | later : id = beginId ∨ id = endId ∨ id ∈ ps.flatMap Piece.own := by simpa [Piece.own] using own
    all_goals obtain rfl | shared : id = repeatId ∨ id ∈ ps.flatMap Piece.shared := by simpa [Piece.shared] using shared
    · exact distinct.1.1 rfl
    · exact free begins shared
    · exact distinct.2 rfl
    · exact free ends shared
    · exact apart repeats later
    · exact h.apart later shared
  · intro id own
    obtain rfl | rfl | own : id = beginId ∨ id = endId ∨ id ∈ ps.flatMap Piece.own := by simpa [Piece.own] using own
    · exact .inl (by simp [Frame.reserved, Block.reserved])
    · exact .inl (by simp [Frame.reserved, Block.reserved])
    · exact (h.reserved own).imp_left fun mem => List.mem_append_right _ mem
  · intro id shared
    obtain rfl | shared : id = repeatId ∨ id ∈ ps.flatMap Piece.shared := by simpa [Piece.shared] using shared
    · exact .inr (.inl (List.mem_append_left _ repeats))
    · exact (h.known shared).imp_right fun known => known.imp_left fun mem => List.mem_append_right _ mem

end Nested

end Asm65
