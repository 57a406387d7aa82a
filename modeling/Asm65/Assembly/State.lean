import Asm65.Block
import Asm65.Cpu.Opcode
import Asm65.Diagnostics
import Asm65.Expression.Basic
import Asm65.Listing
import Asm65.Object.Basic

/-!
# The state of an assembly

Assembling reads the source again from the top in every pass. Segments, uses, open blocks, the listing and
the labels of blocks start anew in each pass; names and the addresses of symbols stay, and a pass that
leaves every address as it was is the last. An assembler may run several times: it keeps its files, names
and symbols.
-/

namespace Asm65
set_option autoImplicit false

structure Options where
  /-- Replace branches that do not reach by a branch around a jump. -/
  longBranches : Bool := true
  maxPasses : Nat := 16

/-- Whether a short branch reaches its target. -/
inductive Reach where
  /-- It does, with this offset. -/
  | short (offset : Int)
  /-- It does not; the offset from the end of the short form. -/
  | far (offset : Int)
  /-- The target is not known yet. -/
  | unknown
  deriving DecidableEq

/-- A decision about a branch, kept for the estimates of the next pass. -/
structure ReachEntry where
  pos : Position
  /-- Where the branch stood. -/
  here : UInt16
  /-- How long it became. -/
  length : Nat

theorem ReachEntry.eq_iff {a b : ReachEntry} : (a.pos = b.pos ∧ a.here = b.here ∧ a.length = b.length) ↔ a = b := by
  cases a; cases b; simp

instance : DecidableEq ReachEntry := fun _ _ => decidable_of_iff _ ReachEntry.eq_iff

/-- Steps of a run that a trace on the console shows. -/
inductive Note where
  | assembling (cpu : Cpu)
  | pass (n : Nat)
  | complete (passes : Nat)
  | loaded (path : Path)
  deriving DecidableEq

namespace Note

def message : Note → String
  | .assembling cpu => "Assembling for the " ++ cpu.name ++ "..."
  | .pass n => "Assembly pass " ++ toString n ++ "..."
  | .complete n => "Assembly complete after " ++ toString n ++ " passes."
  | .loaded path => "Loaded source file: " ++ path.text

end Note

/-- What a pass did with addresses. -/
inductive Event where
  /-- The value of a name was asked for. -/
  | lookup (id : SymbolId) (name : String) (value : Address)
  /-- A symbol or a label of a block was defined. -/
  | defined (id : SymbolId) (value : Address)
  /-- A definition was refused, since the symbol or label has one in this pass. -/
  | refused (id : SymbolId)
  /-- A label of a block was handed out. -/
  | label (id : SymbolId)
  /-- The label of a loop's end was given up, since the loop ends with its test. -/
  | dropped (id : SymbolId)
  /-- An address was written as an operand. -/
  | operand (site value : Address)
  /-- The operand of an instruction was written as one byte, for this mode. -/
  | narrow (mode : Mode) (site value : Address)
  /-- The branch with this number in the pass was decided. -/
  | branch (index : Nat) (pos : Position) (site target : Address) (reach : Reach)
  /-- A name was declared public or external. -/
  | declared (name : String) (isPublic : Bool)
  /-- A label of the source was given its place. -/
  | placed (name : String) (space : Space) (offset : Nat)
  /-- A name was given the value of the expression that `tokens` start with. -/
  | equated (name : String) (tokens : TokenStream) (space : Space) (offset : Nat) (value : Address)
  deriving DecidableEq

/-- What follows a statement. -/
inductive Flow where
  | goOn
  | stop
  deriving DecidableEq

structure Assembler where
  cpu : Cpu
  options : Options
  disk : Disk
  files : SourceTable := {}
  tokens : TokenStream := .ofFile {} 0
  /-- The last token read ended a line. -/
  lineEnded : Bool := true
  identifiers : IdentifierTable := {}
  symbols : SymbolTable := {}
  blocks : BlockStack := []
  segments : PerSpace Segment := .const .empty
  /-- The space that statements add to. -/
  current : Space := .code
  uses : Std.ExtTreeMap Address Address compare := ∅
  pass : Nat := 0
  /-- A symbol has another address than in the pass before. -/
  moved : Bool := false
  /-- The number of the next label of a block. -/
  nextLabel : Nat := autoLabelBase
  /-- Where the statement being assembled starts. -/
  start : Address := .inSpace .code 0
  reachLog : Array ReachEntry := #[]
  /-- The log of the pass before. -/
  lastReachLog : Array ReachEntry := #[]
  diagnostics : Diagnostics := {}
  /-- Errors that stand only if the last pass still has them. -/
  provisional : Array Error := #[]
  listing : Listing := {}
  /-- A run has been stopped by an error. -/
  fatal : Bool := false
  /-- Steps so far, latest first. -/
  notes : List Note := []
  /-- What the pass did, latest first. -/
  trace : List Event := []

/-- A step of assembling: it may fail, and leaves a state either way. -/
abbrev Asm := EStateM Error Assembler

namespace Assembler

/-- A new assembler. -/
def new (cpu : Cpu) (options : Options) (disk : Disk) : Assembler := { cpu, options, disk }

/-- Adds a source text, also for inclusion; gives its number. -/
def addSource (s : Assembler) (name text : String) : Nat × Assembler :=
  let (id, files) := s.files.add ⟨name⟩ text
  (id, { s with files })

def record (s : Assembler) (e : Error) : Assembler := { s with diagnostics := s.diagnostics.record e }

/-- Records an error that stands only if the last pass still has it. -/
def recordProvisional (s : Assembler) (e : Error) : Assembler := { s with provisional := s.provisional.push e }

def note (s : Assembler) (n : Note) : Assembler := { s with notes := n :: s.notes }

def log (s : Assembler) (e : Event) : Assembler := { s with trace := e :: s.trace }

def segment (s : Assembler) (space : Space) : Segment := s.segments.get space

/-- The address of the next byte. -/
def here (s : Assembler) : Address := (s.segment s.current).tail s.current

/-- Appends a byte to the current segment. -/
def emit (s : Assembler) (b : UInt8) : Assembler :=
  { s with segments := s.segments.modify s.current (·.push b) }

/-- Appends bytes to the current segment. -/
def emitAll (s : Assembler) (bs : Array UInt8) : Assembler :=
  { s with segments := s.segments.modify s.current (·.append bs) }

@[simp] theorem segment_emit_self (s : Assembler) (b : UInt8) :
    (s.emit b).segment s.current = (s.segment s.current).push b := by
  simp [emit, segment]

theorem segment_emit_of_ne (s : Assembler) (b : UInt8) {space : Space} (h : s.current ≠ space) :
    (s.emit b).segment space = s.segment space := by
  simp [emit, segment, PerSpace.get_modify_of_ne _ _ h]

/-- The number of the file with a path, read from disk if it is not known. -/
def load (path : Path) (s : Assembler) : Except Cause (Nat × Assembler) :=
  match s.files.load s.disk path with
  | .ok (id, files) =>
    let fresh := s.files.size < files.size
    let s := { s with files }
    .ok (id, if fresh then s.note (.loaded path) else s)
  | .error cause => .error cause

end Assembler

namespace Asm

def fail {α : Type} (cause : Cause) (pos : Position) : Asm α := throw (.at_ cause pos)

def nextToken : Asm Token := fun s =>
  match s.tokens.next with
  | (.ok t, tokens) => .ok t { s with tokens, lineEnded := t.lexeme == .endOfLine }
  | (.error e, tokens) => .error e { s with tokens }

/-- Puts a token back; a line whose end is put back has not ended. -/
def putBack (t : Token) (s : Assembler) : Assembler :=
  { s with tokens := s.tokens.unread t, lineEnded := s.lineEnded && !t.endsStatement }

/-- Puts a token back. -/
def unread (t : Token) : Asm Unit := modify (putBack t)

/-- The number of a name. -/
def intern (name : String) (pos : Position) : Asm SymbolId := fun s =>
  match s.identifiers.intern name with
  | .ok (id, identifiers) => .ok id { s with identifiers }
  | .error cause => .error (.at_ cause pos) s

/-- The value of a name. After the first pass a name without value is an error, which does not stop the
statement. -/
def resolve (name : String) (pos : Position) : Asm Address := do
  let id ← intern name pos
  let a := (← get).symbols.address id
  modify (·.log (.lookup id name a))
  if a.isUndefined && (← get).pass ≥ 2 then
    modify (·.record (.at_ (.symbolUndefined name) pos))
  return a

instance : Operands Assembler Address where
  next := nextToken
  unread := putBack
  resolve := resolve
  location s := s.start
  budget s := s.tokens.budget

/-- Reads an expression. -/
def expression : Asm Address := Expression.read

/-- More steps than any loop over the tokens of a statement takes. -/
def budget : Asm Nat := return (← get).tokens.budget

/-- Reads the end of a statement; the end of the root file stays to be read. -/
def endOfStatement : Asm Flow := do
  let t ← nextToken
  match t.lexeme with
  | .endOfLine => return .goOn
  | .endOfFile =>
    unread t
    return .goOn
  | lexeme => fail (.trailingToken lexeme) t.pos

/-- Reads a comma, if one follows. -/
def comma : Asm Bool := Expression.comma

/-- Defines a symbol in this pass. -/
def defineId (id : SymbolId) (name : String) (address : Address) (pos : Position) : Asm Unit := fun s =>
  match s.symbols.define id name address s.pass with
  | (.duplicate, _) => .error (.at_ (.symbolRedefined name) pos) (s.log (.refused id))
  | (outcome, symbols) =>
    let moved := s.moved || outcome == .moved
    .ok () (Assembler.log { s with symbols, moved } (.defined id address))

/-- Defines a name. -/
def defineName (name : String) (address : Address) (pos : Position) : Asm Unit := do
  let id ← intern name pos
  defineId id name address pos

end Asm

end Asm65
