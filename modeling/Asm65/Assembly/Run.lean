import Asm65.Assembly.Statement

/-!
# Passes and runs

A pass reads the root file and all it includes; an error drops the rest of its line and the pass goes on.
Passes repeat until one, the second or a later one, moves no symbol. Errors are collected over all passes,
except for branches out of reach, of which only those of the last pass stand.
-/

namespace Asm65
set_option autoImplicit false

/-- A pass stops once more errors than this are known. -/
def maxErrors : Nat := 100

/-- The result of a run without errors. -/
structure Assembly where
  object : Object
  listing : Listing
  passes : Nat

namespace Assembler

/-- Adds a row for a statement that started at `start` of a space. -/
def listStatement (s : Assembler) (pos : Position) (space : Space) (start : Nat) : Assembler :=
  let bytes := if s.current = space then (s.segment space).bytes.extract start else #[]
  let text := (s.files.line? pos.file pos.line).getD ""
  { s with listing := s.listing.push { pos, space, address := UInt16.ofNat start, bytes, text } }

/-- Drops the rest of the line. -/
def skipLine (s : Assembler) : Assembler := { s with tokens := s.tokens.skipLine }

/-- Assembles the statement that starts with a token; says whether the pass goes on. -/
def oneStatement (s : Assembler) (first : Token) : Assembler × Flow :=
  let space := s.current
  let start := (s.segment space).size
  let s := { s with start := s.here }
  match Asm.statement first s with
  | .ok flow s => (s.listStatement first.pos space start, flow)
  | .error e s =>
    let s := s.record e
    if e.isFatal then ({ s with fatal := true }, .stop)
    else
      let s := if s.lineEnded then s else s.skipLine
      (s.listStatement first.pos space start, .goOn)

/-- Statement after statement, at most `n` lines. -/
def statements : Nat → Assembler → Assembler
  | 0, s => s
  | n + 1, s =>
    if s.diagnostics.size > maxErrors then s
    else
      match Asm.nextToken s with
      | .error e s => statements n (s.record e).skipLine
      | .ok first s =>
        match first.lexeme with
        | .endOfFile => s
        | .endOfLine => statements n s
        | _ =>
          match s.oneStatement first with
          | (s, .goOn) => statements n s
          | (s, .stop) => s

/-- More lines than a pass can read: with `k` files of `m` characters in all, files nest at most `k` deep, and
each line of a file can include a file once. -/
def lineBudget (s : Assembler) : Nat :=
  let inTable := s.files.files.foldl (fun n f => n + f.text.utf8ByteSize) 0
  let onDisk := s.disk.files.foldl (fun n _ bytes => n + bytes.size) 0
  Nat.pow (inTable + onDisk + 4) (s.files.size + s.disk.files.size + 2)

/-- What a pass clears. -/
def beginPass (s : Assembler) (root : Nat) : Assembler :=
  { s with
    segments := .const .empty
    current := .code
    uses := ∅
    blocks := []
    listing := {}
    nextLabel := autoLabelBase
    moved := false
    provisional := #[]
    lastReachLog := s.reachLog
    reachLog := #[]
    tokens := .ofFile s.files root
    lineEnded := true
    trace := [] }

/-- Reports a block left open and gives its labels an address. -/
def closeOpen (s : Assembler) (b : Block) (pos : Position) : Assembler :=
  let s := s.record (.at_ (.blockNotClosed b.opener.name) pos)
  match Asm.placeLabels pos b.pending s with
  | .ok _ s => s
  | .error e s => s.record e

/-- Closes all blocks left open. -/
def closeAll (s : Assembler) : Assembler :=
  s.blocks.foldl (fun s (b, pos) => s.closeOpen b pos) { s with blocks := [] }

/-- Reports blocks left open and, after the first pass, public names without definition. -/
def endPass (s : Assembler) : Assembler :=
  let s := s.closeAll
  if s.pass < 2 then s
  else
    let missing := s.symbols.toList.filter fun sym => sym.isPublic && sym.address.isUndefined
    missing.foldl (fun s sym => s.record ⟨.publicUndefined sym.name, none⟩) s

/-- One pass. -/
def onePass (s : Assembler) (root : Nat) : Assembler :=
  let s := { s with pass := s.pass + 1 }
  let s := (s.note (.pass s.pass)).beginPass root
  (statements s.lineBudget s).endPass

/-- Passes until the addresses settle; `more` may follow the first. -/
def passes (root : Nat) : Nat → Assembler → Assembler
  | more, s =>
    let s := s.onePass root
    if s.fatal || s.diagnostics.size > maxErrors then s
    else if s.pass ≥ 2 && !s.moved then s
    else
      match more with
      | 0 => s.record ⟨.notConverged s.pass, none⟩
      | more + 1 => passes root more s

/-- The module of the last pass. -/
def toObject (s : Assembler) : Object :=
  { segments := s.segments, symbols := s.symbols.named, uses := s.uses }

/-- What a run starts from. -/
def prepared (s : Assembler) : Assembler :=
  { s.note (.assembling s.cpu) with pass := 0, reachLog := #[], diagnostics := {} }

/-- The result of a run whose passes are done. -/
def conclude (s : Assembler) : Except Diagnostics Assembly × Assembler :=
  let s := s.provisional.foldl record { s with provisional := #[] }
  if s.diagnostics.isEmpty then
    let s := s.note (.complete s.pass)
    let s := { s with listing := s.listing.setSymbols s.symbols.toList }
    (.ok { object := s.toObject, listing := s.listing, passes := s.pass }, s)
  else
    (.error { s.diagnostics with files := s.files.displayNames }, { s with diagnostics := {} })

/-- Assembles a file of the table. -/
def run (s : Assembler) (root : Nat) : Except Diagnostics Assembly × Assembler :=
  (passes root (s.options.maxPasses - 1) s.prepared).conclude

/-- Assembles the file with a path. -/
def assembleFile (s : Assembler) (path : Path) : Except Diagnostics Assembly × Assembler :=
  match s.load path with
  | .ok (root, s) => s.run root
  | .error cause => (.error (.ofError ⟨cause, none⟩), s)

end Assembler

end Asm65
