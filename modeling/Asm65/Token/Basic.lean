import Asm65.Position
import Asm65.Text.Column

/-!
# Lexemes and tokens

The vocabulary of assembly source: punctuation, the keywords of directives and structured blocks,
names, numbers, strings and the two ends. Instruction mnemonics and condition names are plain
identifiers here; they belong to the instruction set.
-/

namespace Asm65
set_option autoImplicit false

/-- Operators and punctuation. -/
inductive Punct where
  | plus | minus | star | slash | percent | amp | pipe | caret | tilde | shl | shr
  | lparen | rparen | lbracket | rbracket | comma | hash | colon | equals | less | greater
  deriving DecidableEq

namespace Punct

def all : List Punct :=
  [.plus, .minus, .star, .slash, .percent, .amp, .pipe, .caret, .tilde, .shl, .shr,
   .lparen, .rparen, .lbracket, .rbracket, .comma, .hash, .colon, .equals, .less, .greater]

/-- The name used in messages. -/
def name : Punct → String
  | .plus => "Plus"
  | .minus => "Minus"
  | .star => "Star"
  | .slash => "Slash"
  | .percent => "Percent"
  | .amp => "Amp"
  | .pipe => "Pipe"
  | .caret => "Caret"
  | .tilde => "Tilde"
  | .shl => "Shl"
  | .shr => "Shr"
  | .lparen => "LParen"
  | .rparen => "RParen"
  | .lbracket => "LBracket"
  | .rbracket => "RBracket"
  | .comma => "Comma"
  | .hash => "Hash"
  | .colon => "Colon"
  | .equals => "Equals"
  | .less => "Less"
  | .greater => "Greater"

/-- The characters as written in source. -/
def spelling : Punct → List Char
  | .plus => ['+']
  | .minus => ['-']
  | .star => ['*']
  | .slash => ['/']
  | .percent => ['%']
  | .amp => ['&']
  | .pipe => ['|']
  | .caret => ['^']
  | .tilde => ['~']
  | .shl => ['<', '<']
  | .shr => ['>', '>']
  | .lparen => ['(']
  | .rparen => [')']
  | .lbracket => ['[']
  | .rbracket => [']']
  | .comma => [',']
  | .hash => ['#']
  | .colon => [':']
  | .equals => ['=']
  | .less => ['<']
  | .greater => ['>']

end Punct

/-- The words of directives and structured blocks. -/
inductive Keyword where
  | codeSpace | dataSpace | zeroPageSpace
  | bytes | words | reserve | equate | includeFile | declarePublic | declareExternal | endSource
  | ifBlock | elseIf | elsePart | endIf | doBlock | whileTest | loopEnd
  deriving DecidableEq

namespace Keyword

/-- The name used in messages. -/
def name : Keyword → String
  | .codeSpace => "Code"
  | .dataSpace => "Data"
  | .zeroPageSpace => "ZPage"
  | .bytes => "Db"
  | .words => "Dw"
  | .reserve => "Ds"
  | .equate => "Equ"
  | .includeFile => "Include"
  | .declarePublic => "Public"
  | .declareExternal => "Extern"
  | .endSource => "End"
  | .ifBlock => "If"
  | .elseIf => "ElseIf"
  | .elsePart => "Else"
  | .endIf => "EndIf"
  | .doBlock => "Do"
  | .whileTest => "While"
  | .loopEnd => "Wend"

/-- The keyword that a word spells, in any mixture of cases. -/
def ofWord? (word : String) : Option Keyword :=
  match Text.upper word with
  | "CODE" => some .codeSpace
  | "DATA" => some .dataSpace
  | "ZPAGE" => some .zeroPageSpace
  | "DB" | "BYTE" | "DEFB" => some .bytes
  | "DW" | "WORD" | "DEFW" => some .words
  | "DS" | "DEFS" | "RES" => some .reserve
  | "EQU" => some .equate
  | "INCLUDE" => some .includeFile
  | "PUBLIC" => some .declarePublic
  | "EXTERN" => some .declareExternal
  | "END" => some .endSource
  | "IF" => some .ifBlock
  | "ELSEIF" => some .elseIf
  | "ELSE" => some .elsePart
  | "ENDIF" => some .endIf
  | "DO" => some .doBlock
  | "WHILE" => some .whileTest
  | "WEND" => some .loopEnd
  | _ => none

end Keyword

/-- What a token is, apart from where it stands. -/
inductive Lexeme where
  | punct (p : Punct)
  | keyword (k : Keyword)
  | identifier (name : String)
  /-- Up to sixteen bits for digits; a quoted character gives its code point. -/
  | number (n : Nat)
  | string (s : String)
  | endOfLine
  | endOfFile
  deriving DecidableEq

namespace Lexeme

/-- The text of a lexeme in messages. -/
def text : Lexeme → String
  | .punct p => p.name
  | .keyword k => k.name
  | .identifier s => "\"" ++ s ++ "\""
  | .number n => toString n
  | .string s => "string \"" ++ s ++ "\""
  | .endOfLine => "end of line"
  | .endOfFile => "end of file"

/-- Whether a statement ends here. -/
def endsStatement : Lexeme → Bool
  | .endOfLine | .endOfFile => true
  | _ => false

end Lexeme

/-- A lexeme and the position of its first character. -/
structure Token where
  lexeme : Lexeme
  pos : Position
  deriving DecidableEq

namespace Token

def isPunct (t : Token) (p : Punct) : Bool := t.lexeme == .punct p

def isKeyword (t : Token) (k : Keyword) : Bool := t.lexeme == .keyword k

def endsStatement (t : Token) : Bool := t.lexeme.endsStatement

/-- The name, if the token is an identifier. -/
def identifier? (t : Token) : Option String :=
  match t.lexeme with
  | .identifier s => some s
  | _ => none

end Token

end Asm65
