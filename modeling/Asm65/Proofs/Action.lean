import Asm65.Assembly.Run
import Asm65.Proofs.Footprint
import Asm65.Proofs.SymbolTable
import Mathlib.Logic.Relation

/-!
# What a statement can do

Whatever the assembler does with a statement is a sequence of a few kinds of actions: reading tokens and
files, asking for and giving values to names, writing bytes and operands, deciding about branches. Structured
blocks also hand out labels, give them their place and open and close blocks. Each kind of action comes with
what is known when it happens, so that facts about a pass need one case for each kind and none for the
functions that take it.
-/

namespace Asm65
set_option autoImplicit false

namespace Block

/-- All labels of a block. -/
def labels : Block → List SymbolId
  | .cond elseId endId => elseId.toList ++ [endId]
  | .loop beginId repeatId endId _ => [beginId, repeatId, endId]

/-- The label that a loop jumps back to. -/
def top? : Block → Option SymbolId
  | .cond .. => none
  | .loop _ repeatId _ _ => some repeatId

end Block

namespace BlockStack

/-- All labels of the open blocks. -/
def labels (blocks : BlockStack) : List SymbolId := blocks.flatMap (·.1.labels)

/-- The labels of open blocks are different labels handed out in this pass, and the tops of loops have their
place. -/
structure Nested (blocks : BlockStack) (nextLabel : Nat) (symbols : SymbolTable) : Prop where
  base : autoLabelBase ≤ nextLabel
  nodup : (labels blocks).Nodup
  range : ∀ id ∈ labels blocks, autoLabelBase ≤ id.toNat ∧ id.toNat < nextLabel
  top : ∀ b ∈ blocks, ∀ id ∈ b.1.top?, (symbols.get? id).isSome

end BlockStack

namespace Assembler

/-- The values of names as the module so far shows them. -/
def valueOf (s : Assembler) (name : String) : Address := (s.toObject.address? name).getD .undefined

/-- After a definition that is not refused. -/
def assign (s : Assembler) (id : SymbolId) (name : String) (a : Address) : Assembler :=
  log
    { s with
      symbols := (s.symbols.define id name a s.pass).2
      moved := s.moved || (s.symbols.define id name a s.pass).1 == .moved }
    (.defined id a)

/-- After asking for the value of a name. -/
def lookUp (s : Assembler) (id : SymbolId) (name : String) (pos : Position) : Assembler :=
  let a := s.symbols.address id
  let s := s.log (.lookup id name a)
  if a.isUndefined && s.pass ≥ 2 then s.record (.at_ (.symbolUndefined name) pos) else s

/-- After writing an operand as the bytes `bs`, with the use `use` and the reports `d`. -/
def wrote (s : Assembler) (a : Address) (use : Option Address) (d : Diagnostics) (bs : Array UInt8) : Assembler :=
  { s with
    trace := .operand s.here a :: s.trace
    uses := use.elim s.uses (s.uses.insert s.here)
    diagnostics := d
    segments := s.segments.modify s.current (·.append bs) }

/-- After deciding about a branch and writing the bytes `bs` for it, with the errors `p` held for the end. -/
def branched (s : Assembler) (pos : Position) (target : Address) (r : Reach) (length : Nat) (p : Array Error)
    (bs : Array UInt8) : Assembler :=
  { s with
    reachLog := s.reachLog.push ⟨pos, s.here.value, length⟩
    trace := .branch s.reachLog.size pos s.here target r :: s.trace
    provisional := p
    segments := s.segments.modify s.current (·.append bs) }

/-- Where a value comes from: it is no distance, and one that refers to another module was asked for by a name of
this pass. -/
structure Drawn (s : Assembler) (a : Address) : Prop where
  direct : a.relative = false
  asked {id : SymbolId} (h : a.origin = .external id) :
    ∃ k name v, .lookup k name v ∈ s.trace ∧ v.origin = .external id

/-- A value of the source. After the first pass, one that is not known has been reported. -/
structure Known (s : Assembler) (a : Address) : Prop where
  reported : 2 ≤ s.pass → a.isUndefined = true → s.diagnostics.isEmpty = false
  drawn : s.Drawn a

/-- One of these labels of blocks has no place yet. -/
def Awaits (s : Assembler) (ids : List SymbolId) : Prop :=
  ∃ id ∈ ids, autoLabelBase ≤ id.toNat ∧ s.symbols.get? id = none

/-- A value of the source or the place of a label. After the first pass, one that is not known has been reported,
or one of these labels is still to come. -/
structure Aims (s : Assembler) (ids : List SymbolId) (a : Address) : Prop where
  reported : 2 ≤ s.pass → a.isUndefined = true → s.diagnostics.isEmpty = false ∨ s.Awaits ids
  drawn : s.Drawn a

/-- What is written for an operand. If it leaves no use it is a number, or unknown, or in error. A use is of the
operand, or of a byte of it, which only linking decides; the bytes of the use come first. -/
structure Writes (s : Assembler) (a : Address) (use : Option Address) (d : Diagnostics) (bs : Array UInt8) : Prop where
  reported : d = s.diagnostics ∨ ∃ e, d = s.diagnostics.record e
  written : 0 < bs.size ∨ d.isEmpty = false
  recorded : use.isSome ∨ a.isConst = true ∨ a.isUndefined = true ∨ d.isEmpty = false
  used {v : Address} (h : use = some v) :
    (∃ part, v = { a with part }) ∧ a.isConst = false ∧ a.isUndefined = false ∧ ∃ more, bs = v.image ++ more

/-- An address written as one byte at `site`: a number that fits as a signed or an unsigned byte, or a whole address in
the zero page, with a use of its low byte. All else has been reported. -/
structure Narrowed (s : Assembler) (site a : Address) : Prop where
  operand : .operand site a ∈ s.trace
  number (h : a.isConst = true) : (a.fitsByte = true ∨ s.diagnostics.isEmpty = false) ∧ ∃ space offset,
    site = .inSpace space (.ofNat offset) ∧ (s.segment space).bytes[offset]? = some a.value.toUInt8
  place (number : a.isConst = false) (known : a.isUndefined = false) (word : a.part = .word) :
    a.origin = .space .zeroPage ∧ s.uses[site]? = some { a with part := .low } ∨ s.diagnostics.isEmpty = false

/-- The bytes that follow a decision, and the errors held for the end: only a branch found short has its
offset; one that cannot be made longer has a zero there, and an error if its target is known. -/
inductive BranchForm (s : Assembler) : Reach → Array Error → Array UInt8 → Prop where
  | short (op : UInt8) (k : Int) : BranchForm s (.short k) s.provisional #[op, offsetByte k]
  | jump {r : Reach} (long : ∀ k, r ≠ .short k) : BranchForm s r s.provisional #[Opcode.jump]
  | around (op : UInt8) {r : Reach} (long : ∀ k, r ≠ .short k) :
    BranchForm s r s.provisional #[Opcode.inverted op, 3, Opcode.jump]
  | far (op : UInt8) (d : Int) (e : Error) : BranchForm s (.far d) (s.provisional.push e) #[op, 0]
  | unknown (op : UInt8) : BranchForm s .unknown s.provisional #[op, 0]

/-- The actions that leave blocks and their labels alone. Operands may aim at the labels `ids`. -/
inductive Action (ids : List SymbolId) (s : Assembler) : Assembler → Prop where
  | read (tokens : TokenStream) (lineEnded : Bool) : Action ids s { s with tokens, lineEnded }
  | load {path : Path} {id : Nat} {t : Assembler} (h : s.load path = .ok (id, t)) : Action ids s t
  | intern {name : String} {id : SymbolId} {identifiers : IdentifierTable}
    (h : s.identifiers.intern name = .ok (id, identifiers)) : Action ids s { s with identifiers }
  | lookUp {name : String} {id : SymbolId} (pos : Position) (known : s.identifiers.ids[name]? = some id) :
    Action ids s (s.lookUp id name pos)
  | report (e : Error) : Action ids s (s.record e)
  | place {name : String} {id : SymbolId} (known : s.identifiers.ids[name]? = some id)
    (new : (s.symbols.define id name s.here s.pass).1 ≠ .duplicate) :
    Action ids s ((s.assign id name s.here).log (.placed name s.current (s.segment s.current).size))
  | equate {name : String} {id : SymbolId} {value : Address} {tokens : TokenStream} {rest : Scope Address}
    (known : s.identifiers.ids[name]? = some id)
    (new : (s.symbols.define id name value s.pass).1 ≠ .duplicate) (drawn : s.Drawn value)
    (evaluates : Expression.read (⟨tokens, s.valueOf, s.here⟩ : Scope Address) = .ok value rest) :
    Action ids s ((s.assign id name value).log (.equated name tokens s.current (s.segment s.current).size value))
  | declareExternal {name : String} {id : SymbolId} (known : s.identifiers.ids[name]? = some id)
    (new : (s.symbols.define id name (.external id) s.pass).1 ≠ .duplicate) :
    Action ids s ((s.assign id name (.external id)).log (.declared name false))
  | clash {name : String} {id : SymbolId} (known : s.identifiers.ids[name]? = some id) :
    Action ids s (s.log (.refused id))
  | declarePublic {name : String} {id : SymbolId} (known : s.identifiers.ids[name]? = some id) :
    Action ids s (log { s with symbols := s.symbols.declarePublic id name } (.declared name true))
  | switch (space : Space) : Action ids s { s with current := space }
  | bytes (bs : Array UInt8) : Action ids s (s.emitAll bs)
  | operand {a : Address} {use : Option Address} {d : Diagnostics} (bs : Array UInt8) (aims : s.Aims ids a)
    (writes : s.Writes a use d bs) : Action ids s (s.wrote a use d bs)
  | mark {site a : Address} (mode : Mode) (narrowed : s.Narrowed site a) : Action ids s (s.log (.narrow mode site a))
  | branch {pos : Position} {target : Address} {r : Reach} {long length : Nat} {p : Array Error} {bs : Array UInt8}
    (aims : s.Aims ids target) (two : 2 ≤ long)
    (decided : s.estimate pos target 2 long s.reachLog.size = (.ok r, length)) (form : s.BranchForm r p bs) :
    Action ids s (s.branched pos target r length p bs)
  | refuse {e : ReachEntry} (two : 2 ≤ e.length) : Action ids s { s with reachLog := s.reachLog.push e }

/-- The actions of structured blocks, and what the pass does around a statement. -/
inductive Step (s : Assembler) : Assembler → Prop where
  | act {ids : List SymbolId} {t : Assembler} (h : Action ids s t) : Step s t
  | allot (room : s.nextLabel < 0x10000) :
    Step s (log { s with nextLabel := s.nextLabel + 1 } (.label (.ofNat s.nextLabel)))
  | settle {id : SymbolId} (auto : autoLabelBase ≤ id.toNat)
    (new : (s.symbols.define id "" s.here s.pass).1 ≠ .duplicate) : Step s (s.assign id "" s.here)
  | clash (id : SymbolId) : Step s (s.log (.refused id))
  | drop {id : SymbolId} (auto : autoLabelBase ≤ id.toNat) (free : ∀ b ∈ s.blocks, b.1.top? ≠ some id) :
    Step s (log { s with symbols := s.symbols.erase id } (.dropped id))
  | blocks (bs : BlockStack) (nested : BlockStack.Nested bs s.nextLabel s.symbols) : Step s { s with blocks := bs }
  | begin : Step s { s with start := s.here }
  | list (listing : Listing) : Step s { s with listing }
  | stop (failed : s.diagnostics.isEmpty = false) : Step s { s with fatal := true }

/-- Any number of actions that leave blocks and their labels alone. -/
abbrev Acts (ids : List SymbolId) : Assembler → Assembler → Prop := Relation.ReflTransGen (Action ids)

/-- Any number of steps. -/
abbrev Steps : Assembler → Assembler → Prop := Relation.ReflTransGen Step

theorem Acts.steps {ids : List SymbolId} {s t : Assembler} (h : Acts ids s t) : Steps s t :=
  Relation.ReflTransGen.mono (fun _ _ => Step.act) _ _ h

end Assembler

end Asm65
