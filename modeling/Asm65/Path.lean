import Asm65.Text.Column

/-!
# File paths

A path is a text; two paths are the same if their components are. Repeated slashes, inner and trailing
`.` and trailing slashes do not count, a leading `./` does. The operations keep the text as written.
-/

namespace Asm65
set_option autoImplicit false

structure Path where
  text : String
  deriving DecidableEq, Inhabited

namespace Path

inductive Component where
  | root
  | current
  | parent
  | name (s : String)
  deriving DecidableEq

/-- A path cut at its slashes: a leading root or current-folder mark, and the pieces after it. -/
structure Pieces where
  lead : List Char
  body : List (List Char)

/-- A piece that is no component: an empty one or a `.`. -/
def isBlank (piece : List Char) : Bool := piece.isEmpty || piece == ['.']

def pieces (p : Path) : Pieces :=
  match p.text.toList with
  | '/' :: rest => ⟨['/'], rest.splitOn '/'⟩
  | ['.'] => ⟨['.'], []⟩
  | '.' :: '/' :: rest => ⟨['.'], [] :: rest.splitOn '/'⟩
  | cs => ⟨[], cs.splitOn '/'⟩

namespace Pieces

/-- The path with these pieces. -/
def join (ps : Pieces) : Path :=
  ⟨String.ofList (ps.lead ++ List.intercalate ['/'] ps.body)⟩

/-- The pieces before the last component, and that component. -/
def split? (ps : Pieces) : Option (Pieces × List Char) :=
  match ps.body.reverse.dropWhile isBlank with
  | last :: before => some (⟨ps.lead, before.reverse⟩, last)
  | [] => none

/-- Without blank pieces at the end. -/
def trimmed (ps : Pieces) : Pieces :=
  ⟨ps.lead, (ps.body.reverse.dropWhile isBlank).reverse⟩

end Pieces

def components (p : Path) : List Component :=
  let ps := p.pieces
  let lead := match ps.lead with
    | ['/'] => [.root]
    | ['.'] => [.current]
    | _ => []
  lead ++ (ps.body.filter (!isBlank ·)).map fun piece =>
    if piece = ['.', '.'] then .parent else .name (String.ofList piece)

/-- Whether two paths have the same components. -/
def same (p q : Path) : Bool := p.components == q.components

def isAbsolute (p : Path) : Bool := p.text.toList.head? == some '/'

/-- The path of the folder that holds this path's last component. -/
def parent? (p : Path) : Option Path :=
  match p.pieces.split? with
  | some (before, _) => some before.trimmed.join
  | none => if p.pieces.lead = ['.'] then some ⟨""⟩ else none

/-- `q` taken relative to the folder `p`. -/
def join (p q : Path) : Path :=
  if q.isAbsolute then q
  else if p.text.isEmpty || p.text.toList.getLast? == some '/' then ⟨p.text ++ q.text⟩
  else ⟨p.text ++ "/" ++ q.text⟩

/-- The last component, unless it is a root, `.` or `..`. -/
def fileName? (p : Path) : Option String :=
  match p.components.getLast? with
  | some (.name s) => some s
  | _ => none

/-- A file name cut at its last dot, unless that dot is its first character. -/
def splitName (name : String) : String × Option String :=
  let cs := name.toList.reverse
  let after := cs.takeWhile (· != '.')
  match cs.dropWhile (· != '.') with
  | _ :: before@(_ :: _) => (String.ofList before.reverse, some (String.ofList after.reverse))
  | _ => (name, none)

/-- What follows the last dot of the file name. -/
def extension? (p : Path) : Option String := p.fileName?.bind fun name => (splitName name).2

/-- The path with its extension taken off the end of its text; the dot stays. -/
def withoutExtension (p : Path) : Path :=
  match p.extension? with
  | some extension => ⟨String.ofList (p.text.toList.take (p.text.length - extension.length))⟩
  | none => p

/-- The path up to the stem of its file name, with an extension after it; a path without file name stays as
it is. -/
def setExtension (p : Path) (extension : String) : Path :=
  match p.fileName?, p.pieces.split? with
  | some name, some (before, _) =>
    let stem := (splitName name).1.toList
    Pieces.join ⟨before.lead, before.body ++ [stem ++ '.' :: extension.toList]⟩
  | _, _ => p

/-- The path with another extension. The one it has goes first, so a name such as `..x` at the end leaves the
folder above, which takes none. -/
def withExtension (p : Path) (extension : String) : Path :=
  p.withoutExtension.setExtension extension

end Path

end Asm65
