import Asm65.Error

/-!
# Source files

Files are numbered in the order they are first added or loaded; tokens and messages refer to them by
number. A file is found by its path, so an included file that was added in memory is never read from disk.
-/

namespace Asm65
set_option autoImplicit false

structure SourceFile where
  path : Path
  text : String
  /-- The lines of the text, kept for the listing. -/
  rows : Array String
  rows_eq : rows = (Text.lines text).toArray

namespace SourceFile

def ofText (path : Path) (text : String) : SourceFile := ⟨path, text, _, rfl⟩

end SourceFile

structure SourceTable where
  files : Array SourceFile := #[]

namespace SourceTable

def size (t : SourceTable) : Nat := t.files.size

def isEmpty (t : SourceTable) : Bool := t.files.isEmpty

/-- The number of the file with this path. -/
def idOf? (t : SourceTable) (path : Path) : Option Nat := t.files.findIdx? (·.path.same path)

def get? (t : SourceTable) (id : Nat) : Option SourceFile := t.files[id]?

def path? (t : SourceTable) (id : Nat) : Option Path := (t.get? id).map (·.path)

def text? (t : SourceTable) (id : Nat) : Option String := (t.get? id).map (·.text)

/-- A line of a file, from one. -/
def line? (t : SourceTable) (id line : Nat) : Option String := do
  let file ← t.get? id
  if line = 0 then none else file.rows[line - 1]?

/-- Adds a text under a path, or replaces the text that the path had; gives the file's number. -/
def add (t : SourceTable) (path : Path) (text : String) : Nat × SourceTable :=
  match t.idOf? path with
  | some id => (id, ⟨t.files.modify id fun f => .ofText f.path text⟩)
  | none => (t.size, ⟨t.files.push (.ofText path text)⟩)

/-- The number of the file with this path, read from disk if it is not in the table. -/
def load (t : SourceTable) (disk : Disk) (path : Path) : Except Cause (Nat × SourceTable) :=
  match t.idOf? path with
  | some id => .ok (id, t)
  | none =>
    match disk.readText path with
    | .ok text => .ok (t.size, ⟨t.files.push (.ofText path text)⟩)
    | .error failure => .error (.unreadable path failure)

/-- The path that an included name stands for: itself if it is absolute or in the table, else a path in the
folder of the including file. -/
def resolveInclude (t : SourceTable) (including : Nat) (name : String) : Path :=
  let candidate : Path := ⟨name⟩
  if candidate.isAbsolute || (t.idOf? candidate).isSome then candidate
  else
    match (t.path? including).bind (·.parent?) with
    | some folder => folder.join candidate
    | none => candidate

/-- The name of a file in messages and listings. -/
def displayName (t : SourceTable) (id : Nat) : String :=
  match t.path? id with
  | some path => path.fileName?.getD "<NO_FILE_NAME>"
  | none => "<NO_PATH>"

def displayNames (t : SourceTable) : List String := (List.range t.size).map t.displayName

end SourceTable

end Asm65
