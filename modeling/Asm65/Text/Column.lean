/-!
# Columns and lines of text

Fixed-width columns count characters; a text longer than its column is not cut. Lines end at a line
feed, a last line may lack one, and carriage returns at the end of a line are not part of it.
-/

namespace Asm65.Text
set_option autoImplicit false

/-- `s` at the left of a column of `width` characters. -/
def padRight (width : Nat) (s : String) : String :=
  s ++ String.ofList (List.replicate (width - s.length) ' ')

/-- `s` at the right of a column of `width` characters. -/
def padLeft (width : Nat) (s : String) : String :=
  String.ofList (List.replicate (width - s.length) ' ') ++ s

/-- ASCII letters in upper case, all other characters unchanged. -/
def upper (s : String) : String :=
  String.ofList (s.toList.map Char.toUpper)

/-- ASCII letters in lower case, all other characters unchanged. -/
def lower (s : String) : String :=
  String.ofList (s.toList.map Char.toLower)

/-- A line without the carriage returns at its end. -/
def dropReturns (line : List Char) : List Char :=
  (line.reverse.dropWhile (· == '\r')).reverse

/-- The lines of a text, without their terminators. -/
def lines (text : String) : List String :=
  let pieces := text.toList.splitOn '\n'
  let whole := if pieces.getLast? = some [] then pieces.dropLast else pieces
  whole.map fun line => String.ofList (dropReturns line)

/-- How many bytes the UTF-8 encoding of `cs` has. -/
def utf8Length (cs : List Char) : Nat :=
  cs.foldl (fun n c => n + c.utf8Size) 0

end Asm65.Text
