import Asm65.Path
import Std.Data.ExtTreeMap
import Std.Data.ExtTreeSet

/-!
# Files and folders

Files are read from and written to a value: the files by name, relative to a working folder or from the
root, and the folders that exist.
-/

namespace Asm65
set_option autoImplicit false

structure Disk where
  /-- Contents by name. -/
  files : Std.ExtTreeMap String (Array UInt8) compare := ∅
  folders : Std.ExtTreeSet String compare := ∅

namespace Disk

/-- Why a file could not be read or written. -/
inductive Failure where
  | missing
  | notFolder
  | isFolder
  | nameTooLong
  | nulByte
  | notText
  deriving DecidableEq

namespace Failure

def message : Failure → String
  | .missing => "No such file or directory (os error 2)"
  | .notFolder => "Not a directory (os error 20)"
  | .isFolder => "Is a directory (os error 21)"
  | .nameTooLong => "File name too long (os error 36)"
  | .nulByte => "file name contained an unexpected NUL byte"
  | .notText => "stream did not contain valid UTF-8"

end Failure

/-- What a path leads to. -/
inductive Place where
  | folder
  | file (name : String)
  /-- A free name in an existing folder. -/
  | vacant (name : String)

/-- Where the names of a folder are counted from. -/
inductive Start where
  | working
  /-- So many folders above the working folder. -/
  | above (n : Nat)
  | root

/-- A folder on the way: where it is counted from and its names, innermost first. -/
structure Folder where
  start : Start
  names : List String

namespace Folder

/-- The name under which the folder, or a file with these names, is kept. -/
def key (f : Folder) : String :=
  let lead := match f.start with
    | .working => ""
    | .above n => String.join (List.replicate n "../")
    | .root => "/"
  lead ++ String.intercalate "/" f.names.reverse

/-- The folder around it; the root is its own. -/
def up (f : Folder) : Folder :=
  match f.names, f.start with
  | _ :: names, start => ⟨start, names⟩
  | [], .working => ⟨.above 1, []⟩
  | [], .above n => ⟨.above (n + 1), []⟩
  | [], .root => f

def enter (f : Folder) (name : List Char) : Folder := { f with names := String.ofList name :: f.names }

/-- Where following a path starts. -/
def first (p : Path) : Folder := ⟨if p.isAbsolute then .root else .working, []⟩

end Folder

/-- Follows the pieces of a path from a folder. -/
def walk (d : Disk) : Folder → List (List Char) → Except Failure Place
  | _, [] => .ok .folder
  | here, piece :: rest =>
    if Path.isBlank piece then d.walk here rest
    else if piece = ['.', '.'] then d.walk here.up rest
    else if Text.utf8Length piece > 255 then .error .nameTooLong
    else
      let there := here.enter piece
      if d.folders.contains there.key then d.walk there rest
      else if d.files.contains there.key then
        if rest.isEmpty then .ok (.file there.key) else .error .notFolder
      else if rest.isEmpty then .ok (.vacant there.key) else .error .missing

/-- Follows pieces of a path from where the path starts, once its text is found to be a usable one. -/
def follow (d : Disk) (p : Path) (pieces : List (List Char)) : Except Failure Place :=
  let cs := p.text.toList
  if cs.contains (Char.ofNat 0) then .error .nulByte
  else if cs.isEmpty then .error .missing
  else if p.text.utf8ByteSize ≥ 4096 then .error .nameTooLong
  else d.walk (.first p) pieces

/-- Finds what a path leads to. -/
def locate (d : Disk) (p : Path) : Except Failure Place := d.follow p (p.text.toList.splitOn '/')

/-- The bytes of a file. -/
def read (d : Disk) (p : Path) : Except Failure (Array UInt8) := do
  match ← d.locate p with
  | .folder => .error .isFolder
  | .vacant _ => .error .missing
  | .file name =>
    match d.files[name]? with
    | some bytes => .ok bytes
    | none => .error .missing

/-- The text of a file that holds UTF-8. -/
def readText (d : Disk) (p : Path) : Except Failure String := do
  match String.fromUTF8? ⟨← d.read p⟩ with
  | some text => .ok text
  | none => .error .notText

/-- The pieces that lead to the folder which holds the last piece with text. -/
def around (p : Path) : List (List Char) :=
  (((p.text.toList.splitOn '/').reverse.dropWhile List.isEmpty).drop 1).reverse ++ [['.']]

/-- The disk with a file written, which replaces one of that name. A path that ends in a slash can only be a
folder's, whatever its last piece, so then no more than the way to that piece is followed. -/
def write (d : Disk) (p : Path) (bytes : Array UInt8) : Except Failure Disk :=
  if p.text.toList.getLast? = some '/' then do
    let _ ← d.follow p (around p)
    .error .isFolder
  else do
    match ← d.locate p with
    | .folder => .error .isFolder
    | .file name | .vacant name => .ok { d with files := d.files.insert name bytes }

/-- The disk with all folders on the way along the pieces of a path, and the last of them. -/
def enterAll (d : Disk) (here : Folder) : List (List Char) → Disk × Folder
  | [] => (d, here)
  | piece :: rest =>
    if Path.isBlank piece then d.enterAll here rest
    else if piece = ['.', '.'] then d.enterAll here.up rest
    else
      let there := here.enter piece
      enterAll { d with folders := d.folders.insert there.key } there rest

/-- The disk with a folder and the folders on the way to it. -/
def addFolder (d : Disk) (p : Path) : Disk := (d.enterAll (.first p) (p.text.toList.splitOn '/')).1

/-- The disk with a file and the folders on the way to it. -/
def add (d : Disk) (p : Path) (bytes : Array UInt8) : Disk :=
  match (p.text.toList.splitOn '/').reverse with
  | [] => d
  | name :: before =>
    let (d, folder) := d.enterAll (.first p) before.reverse
    { d with files := d.files.insert (folder.enter name).key bytes }

/-- The files that are new or differ from those of an earlier disk, by name. -/
def changes (d before : Disk) : List (String × Array UInt8) :=
  d.files.toList.filter fun (name, bytes) => before.files[name]? != some bytes

/-- Whether the file kept under a name lies below the working folder. -/
def isBelow (name : String) : Bool :=
  match name.toList with
  | '/' :: _ => false
  | '.' :: '.' :: '/' :: _ => false
  | _ => true

end Disk

end Asm65
