import Asm65.Address.Basic
import Asm65.Cpu.Mnemonic
import Asm65.Disk
import Asm65.Token.Basic

/-!
# Errors

An error is a cause, with the source position of the token that shows it if there is one. Causes say
what is wrong in terms of the values involved; `Cause.message` is the one place that words them, and
`Cause.category` files them.
-/

namespace Asm65
set_option autoImplicit false

/-- Binary operators on addresses. -/
inductive Operator where
  | add | sub | mul | div | mod | and | or | xor | shl | shr
  deriving DecidableEq

namespace Operator

def spelling : Operator → String
  | .add => "+"
  | .sub => "-"
  | .mul => "*"
  | .div => "/"
  | .mod => "%"
  | .and => "&"
  | .or => "|"
  | .xor => "^"
  | .shl => "<<"
  | .shr => ">>"

end Operator

/-- The kinds of errors. -/
inductive Category where
  /-- The source is not well formed. -/
  | syntaxError
  /-- A relocatable or external value stands where it is not allowed. -/
  | addressUsage
  /-- A value or a branch offset does not fit its encoding. -/
  | outOfRange
  /-- A symbol is still undefined after the first pass. -/
  | undefinedSymbol
  /-- A symbol is defined twice within one pass. -/
  | duplicate
  /-- Structured blocks are not nested. -/
  | block
  /-- Two modules define the same public symbol. -/
  | duplicateSymbol
  /-- An external reference is never satisfied. -/
  | undefinedExternal
  /-- A file cannot be read or written. -/
  | files
  /-- An object or library file is malformed. -/
  | format
  /-- All else. -/
  | general
  deriving DecidableEq

namespace Category

def name : Category → String
  | .syntaxError => "Syntax"
  | .addressUsage => "AddressUsage"
  | .outOfRange => "OutOfRange"
  | .undefinedSymbol => "Undefined"
  | .duplicate => "Duplicate"
  | .block => "Block"
  | .duplicateSymbol => "DuplicateSymbol"
  | .undefinedExternal => "UndefinedExternal"
  | .files => "IO"
  | .format => "Format"
  | .general => "General"

/-- The heading of a reported error. -/
def label : Category → String
  | .syntaxError => "Syntax Error"
  | .addressUsage => "Address Usage Error"
  | .outOfRange => "Range Error"
  | .undefinedSymbol => "Undefined Symbol"
  | .duplicate | .duplicateSymbol => "Duplicate Symbol"
  | .block => "Block Error"
  | .undefinedExternal => "Undefined External"
  | .files | .format | .general => "Error"

/-- Whether an error of this kind stops a run instead of being collected. -/
def isFatal : Category → Bool
  | .files | .format => true
  | _ => false

end Category

inductive Cause where
  -- characters
  | missingCharacter
  | unexpectedCharacter (c : Char)
  | unterminatedString
  | numberTooLarge (digits : String)
  -- statements
  | unexpectedToken (found : Lexeme)
  | trailingToken (found : Lexeme)
  | unknownInstruction (word : String)
  | symbolNameExpected (found : Lexeme)
  | fileNameExpected (found : Lexeme)
  | tokenAfterInclude (found : Lexeme)
  | includeRecursion (file : String)
  | conditionExpected (found : Lexeme)
  -- expressions and operands
  | punctExpected (wanted : Punct) (found : Lexeme)
  | expressionExpected (found : Lexeme)
  | indirectCloseExpected (found : Lexeme)
  | registerExpected (register : String) (found : Lexeme)
  | indexRegisterExpected (found : Lexeme)
  | unsupportedMode (m : Mnemonic) (mode : Mode)
  | operandMissing (m : Mnemonic)
  | noAccumulatorForm (m : Mnemonic)
  | divisionByZero
  -- addresses
  | byteOfByte
  | illegalOperation (op : Operator) (left right : Address)
  | cannotNegate
  | cannotComplement
  | sizeNotConstant (size : Address)
  | sizeUndefined
  | fillNotByte
  | valueTooLarge (a : Address)
  | wordAsByte (a : Address)
  | byteAsPointer (a : Address)
  | branchOutOfSpace (target : Address) (current : Space)
  | branchOutOfRange (offset : Int)
  -- symbols
  | symbolUndefined (name : String)
  | publicUndefined (name : String)
  | symbolRedefined (name : String)
  | tooManyIdentifiers
  -- blocks
  | blockNotClosed (opener : String)
  | blockNotClosedBefore (opener closer : String)
  | withoutOpener (keyword opener : String)
  | elseIfAfterElse
  | secondElse
  | secondWhile
  | tooManyBlocks
  -- runs
  | notConverged (passes : Nat)
  | includeNotLoaded
  | unreadable (path : Path) (failure : Disk.Failure)
  | unwritable (path : Path) (failure : Disk.Failure)
  -- file formats
  | badOriginTag (tag : Int)
  | badPart (part : Nat)
  | tooMany (what : String) (count : Nat)
  | unexpectedEnd (offset : Nat)
  | badName
  | badObjectVersion (version : Nat)
  | badLibraryVersion (version : Nat)
  | siteOutOfSpace (site : Address)
  | unknownExternal (id : SymbolId)
  | trailingObjectBytes
  | trailingLibraryBytes
  | missingModule (name : String) (index : Nat)
  | recordAfterEnd
  | recordsUnfinished
  /-- The cause lies in the file with this path. -/
  | inFile (path : Path) (cause : Cause)
  -- linking
  | tooManyModules (count : Nat)
  | exportedTwice (name first second : String)
  | definedTwice (name first second : String)
  | externalUndefined (name module : String)
  | useOutOfSpace (module : String) (site : Address)
  | useOfUnknownExternal (module : String) (id : SymbolId)
  | useOfUndefined (module : String) (site : Address)
  | relativeTooFar (module : String) (value site : UInt16)
  | patchOutOfSegment (module : String) (space : Space) (offset : Nat)
  | zeroPageTooLong (last : Nat)
  | segmentTooLong (space : Space)
  | segmentsOverlap (first second : Space)
  | badAddressArgument (what text : String)
  | nothingToLink
  /-- A message worded elsewhere. -/
  | stated (category : Category) (message : String)
  deriving DecidableEq

namespace Cause

def category : Cause → Category
  | .missingCharacter | .unexpectedCharacter _ | .unterminatedString
  | .unexpectedToken _ | .trailingToken _ | .unknownInstruction _ | .symbolNameExpected _ | .fileNameExpected _
  | .tokenAfterInclude _ | .includeRecursion _ | .conditionExpected _
  | .punctExpected .. | .expressionExpected _ | .indirectCloseExpected _ | .registerExpected ..
  | .indexRegisterExpected _
  | .unsupportedMode .. | .operandMissing _ | .noAccumulatorForm _ | .divisionByZero => .syntaxError
  | .byteOfByte | .illegalOperation .. | .cannotNegate | .cannotComplement | .sizeNotConstant _ | .fillNotByte
  | .wordAsByte _ | .byteAsPointer _ | .branchOutOfSpace .. | .useOfUndefined .. => .addressUsage
  | .numberTooLarge _ | .valueTooLarge _ | .branchOutOfRange _ | .relativeTooFar .. => .outOfRange
  | .sizeUndefined | .symbolUndefined _ | .publicUndefined _ => .undefinedSymbol
  | .symbolRedefined _ => .duplicate
  | .blockNotClosed _ | .blockNotClosedBefore .. | .withoutOpener .. | .elseIfAfterElse | .secondElse
  | .secondWhile => .block
  | .exportedTwice .. | .definedTwice .. => .duplicateSymbol
  | .externalUndefined .. => .undefinedExternal
  | .includeNotLoaded | .unreadable .. | .unwritable .. => .files
  | .badOriginTag _ | .badPart _ | .tooMany .. | .unexpectedEnd _ | .badName | .badObjectVersion _
  | .badLibraryVersion _
  | .siteOutOfSpace _ | .unknownExternal _ | .trailingObjectBytes | .trailingLibraryBytes | .missingModule ..
  | .recordAfterEnd | .inFile .. | .useOutOfSpace .. | .useOfUnknownExternal .. | .patchOutOfSegment .. => .format
  | .tooManyIdentifiers | .tooManyBlocks | .notConverged _ | .recordsUnfinished | .tooManyModules _ | .zeroPageTooLong _
  | .segmentTooLong _ | .segmentsOverlap .. | .badAddressArgument .. | .nothingToLink => .general
  | .stated category _ => category

def quoted (s : String) : String := "\"" ++ s ++ "\""

/-- The wording of a cause. -/
def message : Cause → String
  | .missingCharacter => "missing character after `'`"
  | .unexpectedCharacter c => "unexpected character '" ++ c.toString ++ "'"
  | .unterminatedString => "unterminated string"
  | .numberTooLarge digits => "number " ++ quoted digits ++ " does not fit in 16 bits"
  | .unexpectedToken t => "unexpected " ++ t.text
  | .trailingToken t => "unexpected " ++ t.text ++ " at end of statement"
  | .unknownInstruction word => "unknown instruction " ++ quoted word
  | .symbolNameExpected t => "expected a symbol name, found " ++ t.text
  | .fileNameExpected t => "INCLUDE expects a quoted file name, found " ++ t.text
  | .tokenAfterInclude t => "unexpected " ++ t.text ++ " after INCLUDE"
  | .includeRecursion file => "INCLUDE recursion: " ++ quoted file ++ " is already being read"
  | .conditionExpected t => "expected a condition (EQ, NE, CS, CC, ...), found " ++ t.text
  | .punctExpected p t => "expected " ++ p.name ++ ", found " ++ t.text
  | .expressionExpected t => "expected an expression, found " ++ t.text
  | .indirectCloseExpected t => "expected `,X)` or `)`, found " ++ t.text
  | .registerExpected r t => "expected register " ++ r ++ ", found " ++ t.text
  | .indexRegisterExpected t => "expected index register X or Y, found " ++ t.text
  | .unsupportedMode m mode => m.name ++ " does not support " ++ mode.name ++ " addressing"
  | .operandMissing m => m.name ++ " needs an operand"
  | .noAccumulatorForm m => m.name ++ " has no accumulator form"
  | .divisionByZero => "division by zero"
  | .byteOfByte => "cannot take a byte of a byte-sized address"
  | .illegalOperation op l r => "illegal operation: " ++ l.text ++ " " ++ op.spelling ++ " " ++ r.text
  | .cannotNegate => "cannot negate an address"
  | .cannotComplement => "cannot complement an address"
  | .sizeNotConstant a => "the size of DS must be a constant, not " ++ a.text
  | .sizeUndefined => "the size of DS must be defined before the DS"
  | .fillNotByte => "DS fill value must be a byte constant"
  | .valueTooLarge a => "value " ++ a.text ++ " does not fit in a byte"
  | .wordAsByte a => a.text ++ " is a 16-bit address; select a byte with < or >"
  | .byteAsPointer a => a.text ++ " is a single byte and cannot be used as an address"
  | .branchOutOfSpace a s => "branch target " ++ a.text ++ " is not in the current " ++ s.name ++ " segment"
  | .branchOutOfRange d => "branch target is out of range (offset " ++ toString d ++ ")"
  | .symbolUndefined name => "undefined symbol " ++ quoted name
  | .publicUndefined name => "public symbol " ++ quoted name ++ " is never defined"
  | .symbolRedefined name => "symbol " ++ quoted name ++ " is already defined"
  | .tooManyIdentifiers => "too many identifiers: the identifier table ran into the auto-label range"
  | .blockNotClosed opener => opener ++ " block is not closed"
  | .blockNotClosedBefore opener closer => opener ++ " block is not closed before " ++ closer
  | .withoutOpener keyword opener => keyword ++ " without " ++ opener
  | .elseIfAfterElse => "ELSEIF after ELSE"
  | .secondElse => "multiple ELSE in one IF block"
  | .secondWhile => "multiple WHILE in one DO block"
  | .tooManyBlocks => "too many structured blocks"
  | .notConverged n => "addresses did not converge after " ++ toString n ++ " passes"
  | .includeNotLoaded => "include file not loaded"
  | .unreadable p f => p.text ++ ": " ++ f.message
  | .unwritable _ f => f.message
  | .badOriginTag t => "invalid address type tag " ++ toString t
  | .badPart p => "invalid address part " ++ toString p
  | .tooMany what n => "too many " ++ what ++ " (" ++ toString n ++ ") for the object format"
  | .unexpectedEnd at_ => "unexpected end of file at offset " ++ toString at_
  | .badName => "invalid UTF-8 in name"
  | .badObjectVersion v => "unsupported object version " ++ toString v
  | .badLibraryVersion v => "unsupported library version " ++ toString v
  | .siteOutOfSpace a => "address usage site " ++ a.text ++ " is not in a segment"
  | .unknownExternal id => "address usage refers to unknown external #" ++ toString id.toNat
  | .trailingObjectBytes => "trailing bytes after object module"
  | .trailingLibraryBytes => "trailing bytes after library"
  | .missingModule name i => "library index entry " ++ name ++ " refers to missing module " ++ toString i
  | .recordAfterEnd => "records after EOF in hex file"
  | .recordsUnfinished => "cannot write hex file without EOF record"
  | .inFile p cause => p.text ++ ": " ++ cause.message
  | .tooManyModules n => "too many modules (" ++ toString n ++ ") for one library"
  | .exportedTwice name a b => name ++ " is exported by both " ++ a ++ " and " ++ b
  | .definedTwice name a b => name ++ " is defined in both " ++ a ++ " and " ++ b
  | .externalUndefined name m => name ++ " (referenced by " ++ m ++ ")"
  | .useOutOfSpace m site => m ++ ": address usage site " ++ site.text ++ " is not in a segment"
  | .useOfUnknownExternal m id => m ++ ": address usage refers to unknown external #" ++ toString id.toNat
  | .useOfUndefined m site => m ++ ": address usage at " ++ site.text ++ " has no value"
  | .relativeTooFar m v site =>
    m ++ ": relative offset to $" ++ Numeral.hex 4 v.toNat ++ " at $" ++ Numeral.hex 4 site.toNat ++ " is out of range"
  | .patchOutOfSegment m s offset =>
    m ++ ": patch site " ++ s.name ++ ":" ++ Numeral.hex 4 offset ++ " is outside the segment"
  | .zeroPageTooLong last => "zero page segment ends at $" ++ Numeral.hex 4 last ++ ", past the end of zero page"
  | .segmentTooLong s => s.name ++ " segment does not fit below $10000"
  | .segmentsOverlap a b => a.name ++ " and " ++ b.name ++ " segments overlap"
  | .badAddressArgument what text => "invalid " ++ what ++ " address " ++ quoted text
  | .nothingToLink => "no object files to link"
  | .stated _ message => message

end Cause

/-- A cause and the position it is reported at. -/
structure Error where
  cause : Cause
  pos : Option Position := none
  deriving DecidableEq

namespace Error

def category (e : Error) : Category := e.cause.category

def message (e : Error) : String := e.cause.message

def isFatal (e : Error) : Bool := e.category.isFatal

/-- Reported at a position. -/
def at_ (cause : Cause) (pos : Position) : Error := ⟨cause, some pos⟩

/-- Gives an error without position the position of the token that shows it. -/
def located (e : Error) (pos : Position) : Error :=
  { e with pos := e.pos <|> some pos }

/-- The message, after its line and column if it has them. -/
def text (e : Error) : String :=
  match e.pos with
  | some p => p.text ++ ": " ++ e.message
  | none => e.message

end Error

/-! ### Computations that succeed -/

section

variable {ε σ α β : Type}

theorem exists_of_bind {x : Except ε α} {f : α → Except ε β} {b : β} (h : (x >>= f) = .ok b) :
    ∃ a, x = .ok a ∧ f a = .ok b := by
  cases x with
  | error e => cases h
  | ok a => exact ⟨a, rfl, h⟩

theorem exists_of_bind_eq_ok {x : EStateM ε σ α} {f : α → EStateM ε σ β} {s t : σ} {b : β}
    (h : (x >>= f) s = .ok b t) : ∃ a u, x s = .ok a u ∧ f a u = .ok b t := by
  change EStateM.bind x f s = .ok b t at h
  unfold EStateM.bind at h
  split at h
  · exact ⟨_, _, ‹_›, h⟩
  · cases h

end

end Asm65
