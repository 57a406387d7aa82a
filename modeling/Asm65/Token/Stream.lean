import Asm65.Source
import Asm65.Token.Scan

/-!
# Token streams

Tokens of a root file and of the files it includes. A cursor is a place in a file's text; included files
are read from a stack of cursors, and the end of an included file is an end of line, so that it ends the
statement that included it. One token can be put back.
-/

namespace Asm65
set_option autoImplicit false

/-- A place in the text of a file. -/
structure Cursor where
  file : Nat
  text : String
  /-- The characters from here on. -/
  rest : List Char
  line : Nat
  column : Nat
  deriving DecidableEq

namespace Cursor

/-- The start of a text. -/
def ofText (file : Nat) (text : String) : Cursor := ⟨file, text, text.toList, 1, 1⟩

def pos (c : Cursor) : Position := ⟨c.file, c.line, c.column⟩

/-- Past `n` characters of a line. -/
def advance (c : Cursor) (n : Nat) : Cursor :=
  { c with rest := c.rest.drop n, column := c.column + Text.utf8Length (c.rest.take n) }

/-- Past a line feed. -/
def nextLine (c : Cursor) : Cursor :=
  { c with rest := c.rest.drop 1, line := c.line + 1, column := 1 }

/-- At the end of the line. -/
def lineEnd (c : Cursor) : Cursor :=
  c.advance (c.rest.takeWhile (· != '\n')).length

/-- Past blanks, and past a comment after them. -/
def skipBlanks (c : Cursor) : Cursor :=
  let c := c.advance (c.rest.takeWhile Scan.isBlank).length
  if c.rest.head? = some ';' then c.lineEnd else c

end Cursor

structure TokenStream where
  /-- The place in the file being read. -/
  top : Cursor
  /-- The places in the files that include it, innermost first. -/
  below : List Cursor := []
  /-- A token put back. -/
  ahead : Option Token := none
  deriving DecidableEq

namespace TokenStream

/-- The tokens of a file; a file that is not in the table reads as empty. -/
def ofFile (files : SourceTable) (root : Nat) : TokenStream :=
  { top := .ofText root ((files.text? root).getD "") }

/-- The places in all files being read. -/
def cursors (s : TokenStream) : List Cursor := s.top :: s.below

/-- More steps than reading the files on the stack to their ends can take. -/
def budget (s : TokenStream) : Nat :=
  s.cursors.foldl (fun n c => n + c.text.utf8ByteSize + 2) 4

/-- Reads a token from the text. -/
def scan (s : TokenStream) : Except Error Token × TokenStream :=
  let c := s.top.skipBlanks
  match c.rest with
  | [] =>
    match s.below with
    | [] => (.ok ⟨.endOfFile, c.pos⟩, { s with top := c })
    | outer :: below => (.ok ⟨.endOfLine, c.pos⟩, { s with top := outer, below })
  | ch :: rest =>
    if ch = '\n' then (.ok ⟨.endOfLine, c.pos⟩, { s with top := c.nextLine })
    else
      let found := Scan.lexeme ch rest
      let result := match found.result with
        | .ok lexeme => .ok ⟨lexeme, c.pos⟩
        | .error cause => .error (.at_ cause c.pos)
      (result, { s with top := c.advance found.length })

/-- The next token: the one put back, or one from the text. -/
def next (s : TokenStream) : Except Error Token × TokenStream :=
  match s.ahead with
  | some t => (.ok t, { s with ahead := none })
  | none => s.scan

/-- Puts a token back, to be read next. -/
def unread (s : TokenStream) (t : Token) : TokenStream := { s with ahead := some t }

/-- The next token, which stays to be read. -/
def peek (s : TokenStream) : Except Error Token × TokenStream :=
  match s.next with
  | (.ok t, s) => (.ok t, s.unread t)
  | (.error e, s) => (.error e, s)

/-- Reads on until a line has ended. After an error the rest of its line is dropped unread. -/
def skipLineWithin : Nat → TokenStream → TokenStream
  | 0, s => s
  | n + 1, s =>
    match s.next with
    | (.ok t, s) =>
      match t.lexeme with
      | .endOfFile => s.unread t
      | .endOfLine => s
      | _ => skipLineWithin n s
    | (.error _, s) => skipLineWithin n { s with top := s.top.lineEnd }

/-- Drops the rest of the line and its end; the end of the root file stays to be read. -/
def skipLine (s : TokenStream) : TokenStream := skipLineWithin s.budget s

/-- Reads a file before going on with the current one, unless that file is being read already. -/
def pushFile (s : TokenStream) (files : SourceTable) (file : Nat) (pos : Position) : Except Error TokenStream :=
  if s.cursors.any (·.file == file) then .error (.at_ (.includeRecursion (files.displayName file)) pos)
  else
    match files.text? file with
    | some text => .ok { s with top := .ofText file text, below := s.top :: s.below }
    | none => .error (.at_ .includeNotLoaded pos)

end TokenStream

end Asm65
