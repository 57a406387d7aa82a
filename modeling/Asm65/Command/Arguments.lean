/-!
# Arguments

Switches may stand anywhere among the operands: long ones after two dashes, with a value after `=` or in the
next argument; letters after one dash, several in a row, the last of them with its value attached or in the next
argument. Two dashes alone end the switches. A switch is given at most once.
-/

namespace Asm65.Command
set_option autoImplicit false

structure Switch where
  name : String
  letter : Option Char := none
  takesValue : Bool := false

structure Arguments where
  /-- Names of the switches given, without those that take a value. -/
  flags : List String := []
  /-- Values of switches by name. -/
  values : List (String × String) := []
  operands : List String := []

namespace Arguments

def has (a : Arguments) (name : String) : Bool := a.flags.contains name

def value? (a : Arguments) (name : String) : Option String := a.values.lookup name

/-- Adds a switch without value. -/
def addFlag (a : Arguments) (s : Switch) : Option Arguments :=
  if a.has s.name then none else some { a with flags := s.name :: a.flags }

/-- Adds a switch with its value. -/
def addValue (a : Arguments) (s : Switch) (value : List Char) : Option Arguments :=
  if (a.value? s.name).isSome then none
  else some { a with values := (s.name, String.ofList value) :: a.values }

/-- Reads switch letters. Gives the switch whose value is in the next argument, if the last one wants it. -/
def letters (switches : List Switch) : List Char → Arguments → Option (Arguments × Option Switch)
  | [], a => some (a, none)
  | c :: rest, a =>
    match switches.find? (·.letter == some c) with
    | none => none
    | some s =>
      if s.takesValue then
        match rest with
        | [] => some (a, some s)
        | '=' :: value => (a.addValue s value).map (·, none)
        | value => (a.addValue s value).map (·, none)
      else
        match a.addFlag s with
        | some a => letters switches rest a
        | none => none

/-- Reads a long switch, likewise. -/
def long (switches : List Switch) (text : List Char) (a : Arguments) : Option (Arguments × Option Switch) :=
  let name := text.takeWhile (· != '=')
  match switches.find? (·.name == String.ofList name), text.drop name.length with
  | none, _ => none
  | some s, [] => if s.takesValue then some (a, some s) else (a.addFlag s).map (·, none)
  | some s, _ :: value => if s.takesValue then (a.addValue s value).map (·, none) else none

/-- Reads the arguments one by one. `waiting` is a switch that wants its value. -/
def readFrom (switches : List Switch) : Option Switch → List String → Arguments → Option Arguments
  | none, [], a => some { a with operands := a.operands.reverse }
  | some _, [], _ => none
  | waiting, arg :: rest, a =>
    match waiting, arg.toList with
    | none, ['-', '-'] => some { a with operands := a.operands.reverse ++ rest }
    | none, '-' :: '-' :: text =>
      match long switches text a with
      | some (a, waiting) => readFrom switches waiting rest a
      | none => none
    | some _, '-' :: _ :: _ => none
    | none, '-' :: c :: text =>
      match letters switches (c :: text) a with
      | some (a, waiting) => readFrom switches waiting rest a
      | none => none
    | some s, value =>
      match a.addValue s value with
      | some a => readFrom switches none rest a
      | none => none
    | none, _ => readFrom switches none rest { a with operands := arg :: a.operands }

/-- Reads a command line; nothing if it is not well formed. -/
def read (switches : List Switch) (args : List String) : Option Arguments := readFrom switches none args {}

end Arguments

end Asm65.Command
