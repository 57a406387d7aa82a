import Asm65.Source
import Asm65.Symbol.Basic

/-!
# Listings

One row per statement of the last pass, with its place and the bytes it gave, and the named symbols after
the rows. A row shows eight bytes and goes on below if there are more.
-/

namespace Asm65
set_option autoImplicit false

structure Listing.Row where
  pos : Position
  space : Space
  address : UInt16
  bytes : Array UInt8
  text : String

structure Listing where
  rows : Array Listing.Row := #[]
  /-- Names and the text of their values, sorted. -/
  symbols : List (String × String) := []

namespace Listing

def push (l : Listing) (r : Row) : Listing := { l with rows := l.rows.push r }

/-- Name and value as the table shows them. -/
def symbolEntry (s : Symbol) : String × String :=
  (s.name, s.address.text ++ if s.isPublic then " PUBLIC" else "")

def entryLe (a b : String × String) : Bool := a.1 < b.1 || (a.1 == b.1 && a.2 ≤ b.2)

/-- With a table of the named symbols. -/
def setSymbols (l : Listing) (symbols : List Symbol) : Listing :=
  let named := symbols.filter (·.id.toNat < autoLabelBase)
  { l with symbols := (named.map symbolEntry).mergeSort entryLe }

def bytesPerRow : Nat := 8

/-- Bytes in hexadecimal with blanks between them. -/
def hexBytes (bytes : Array UInt8) : String :=
  String.intercalate " " (bytes.toList.map fun b => Numeral.hex 2 b.toNat)

def place (space : Space) (address : Nat) : String :=
  space.letter.toString ++ ":" ++ Numeral.hex 4 (address % 0x10000)

namespace Row

/-- The bytes of the `i`th line of a row. -/
def chunk (r : Row) (i : Nat) : Array UInt8 := r.bytes.extract (i * bytesPerRow) (i * bytesPerRow + bytesPerRow)

/-- The line with the statement. -/
def firstLine (r : Row) : String :=
  Text.padLeft 5 (toString r.pos.line) ++ " " ++ place r.space r.address.toNat ++ "  "
    ++ Text.padRight 24 (hexBytes (r.chunk 0)) ++ " " ++ r.text ++ "\n"

/-- The `i`th line, with bytes only. -/
def nextLine (r : Row) (i : Nat) : String :=
  "      " ++ place r.space (r.address.toNat + i * bytesPerRow) ++ "  " ++ hexBytes (r.chunk i) ++ "\n"

/-- All lines of a row. -/
def rendered (r : Row) : String :=
  let lines := (r.bytes.size + bytesPerRow - 1) / bytesPerRow
  String.join (r.firstLine :: (List.range' 1 (lines - 1)).map r.nextLine)

end Row

/-- Adds the rows to the text so far, with a heading whenever the file changes from `file`. -/
def renderRows (files : SourceTable) (file : Option Nat) (text : String) : List Row → String
  | [] => text
  | r :: rest =>
    let text := if file = some r.pos.file then text else text ++ "; " ++ files.displayName r.pos.file ++ "\n"
    renderRows files (some r.pos.file) (text ++ r.rendered) rest

/-- The text of a listing. -/
def text (l : Listing) (files : SourceTable) : String :=
  let table := l.symbols.map fun (name, value) => "  " ++ Text.padRight 20 name ++ " " ++ value ++ "\n"
  renderRows files none "" l.rows.toList
    ++ if table.isEmpty then "" else "\nSymbols:\n" ++ String.join table

end Listing

end Asm65
