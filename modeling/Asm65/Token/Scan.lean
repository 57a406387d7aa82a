import Asm65.Error

/-!
# Scanning one lexeme

The lexeme at the head of a text, as a number of characters and what they spell. A number that does not
fit, and a quote without a character, are errors that move past nothing, so the same error is met again
until the rest of the line is dropped.
-/

namespace Asm65.Scan
set_option autoImplicit false

/-- What stands at the head of a text. -/
structure Found where
  /-- How many characters it takes. -/
  length : Nat
  result : Except Cause Lexeme

def isBlank (c : Char) : Bool := c == ' ' || c == '\t' || c == '\r'

def isNameStart (c : Char) : Bool := c.isAlpha || c == '_' || c == '.'

def isNameRest (c : Char) : Bool := isNameStart c || c.isDigit

/-- A number whose digits follow `mark` characters; none without digits. -/
def numeral? (radix mark : Nat) (text : List Char) : Option Found :=
  let digits := text.takeWhile (Numeral.isDigit radix)
  if digits.isEmpty then none
  else
    let n := Numeral.value radix digits
    if n < 0x10000 then some ⟨mark + digits.length, .ok (.number n)⟩
    else some ⟨0, .error (.numberTooLarge (String.ofList digits))⟩

/-- `$1F`, `0x1F` or `0X1F`. -/
def hexadecimal? : List Char → Option Found
  | '$' :: rest => numeral? 16 1 rest
  | '0' :: 'x' :: rest => numeral? 16 2 rest
  | '0' :: 'X' :: rest => numeral? 16 2 rest
  | _ => none

/-- `%1011`. -/
def binary? : List Char → Option Found
  | '%' :: rest => numeral? 2 1 rest
  | _ => none

/-- A name, which may be a keyword. -/
def word? (text : List Char) : Option Found :=
  match text with
  | c :: _ =>
    if isNameStart c then
      let cs := text.takeWhile isNameRest
      let name := String.ofList cs
      let lexeme := match Keyword.ofWord? name with
        | some k => Lexeme.keyword k
        | none => .identifier name
      some ⟨cs.length, .ok lexeme⟩
    else none
  | [] => none

/-- The character that a backslash and `c` stand for. -/
def escaped (c : Char) : Char :=
  match c with
  | 'n' => '\n'
  | 'r' => '\r'
  | 't' => '\t'
  | '0' => Char.ofNat 0
  | c => c

/-- The characters of a string up to its closing quote: how many are read, added to `n`, and what they
stand for, in reverse. A string ends within its line. -/
def stringBody? : List Char → Nat → List Char → Option (Nat × List Char)
  | '"' :: _, n, acc => some (n + 1, acc)
  | '\n' :: _, _, _ => none
  | '\\' :: c :: rest, n, acc => if c = '\n' then none else stringBody? rest (n + 2) (escaped c :: acc)
  | ['\\'], _, _ => none
  | c :: rest, n, acc => stringBody? rest (n + 1) (c :: acc)
  | [], _, _ => none

/-- A quoted character, given its code point; the closing quote may be left out. -/
def character (afterQuote : List Char) : Found :=
  match afterQuote with
  | c :: rest =>
    if c = '\n' then ⟨0, .error .missingCharacter⟩
    else ⟨if rest.head? = some '\'' then 3 else 2, .ok (.number c.toNat)⟩
  | [] => ⟨0, .error .missingCharacter⟩

/-- A string; without closing quote the rest of the line is dropped. -/
def quotedString (afterQuote : List Char) : Found :=
  match stringBody? afterQuote 1 [] with
  | some (n, acc) => ⟨n, .ok (.string (String.ofList acc.reverse))⟩
  | none => ⟨1 + (afterQuote.takeWhile (· != '\n')).length, .error .unterminatedString⟩

/-- The punctuation at the head of a text. -/
def punct? : Char → List Char → Option Punct
  | '<', '<' :: _ => some .shl
  | '>', '>' :: _ => some .shr
  | '+', _ => some .plus
  | '-', _ => some .minus
  | '*', _ => some .star
  | '/', _ => some .slash
  | '%', _ => some .percent
  | '&', _ => some .amp
  | '|', _ => some .pipe
  | '^', _ => some .caret
  | '~', _ => some .tilde
  | '(', _ => some .lparen
  | ')', _ => some .rparen
  | '[', _ => some .lbracket
  | ']', _ => some .rbracket
  | ',', _ => some .comma
  | '#', _ => some .hash
  | ':', _ => some .colon
  | '=', _ => some .equals
  | '<', _ => some .less
  | '>', _ => some .greater
  | _, _ => none

/-- Quotes, punctuation, and characters that start nothing. -/
def mark (c : Char) (rest : List Char) : Found :=
  match c with
  | '\'' => character rest
  | '"' => quotedString rest
  | c =>
    match punct? c rest with
    | some p => ⟨p.spelling.length, .ok (.punct p)⟩
    | none => ⟨1, .error (.unexpectedCharacter c)⟩

/-- The lexeme at the head of a text that starts with neither a blank nor a line's end. Numbers are tried
first, then names. -/
def lexeme (c : Char) (rest : List Char) : Found :=
  let text := c :: rest
  ((hexadecimal? text <|> numeral? 10 0 text <|> binary? text <|> word? text)).getD (mark c rest)

end Asm65.Scan
