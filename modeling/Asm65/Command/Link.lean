import Asm65.Command.Arguments
import Asm65.Command.Job
import Asm65.Command.Value
import Asm65.Library.Codec
import Asm65.Link.Output
import Asm65.Target

/-!
# The linker on the command line

Links object files and libraries into a target file, with a map beside it.
-/

namespace Asm65.Command
set_option autoImplicit false

structure LinkRequest where
  target : String
  code : String
  data : String
  /-- The base of the zero page, if the first one reads as an address, then object files and libraries. -/
  inputs : List String
  /-- Print the map. -/
  map : Bool
  verbose : Bool

namespace LinkRequest

def switches : List Switch := [{ name := "map", letter := some 'm' }, { name := "verbose", letter := some 'v' }]

def usage : String := "[-m] [-v] TARGET CODE DATA [ZEROPAGE] INPUT..."

def ofArguments (a : Arguments) : Option LinkRequest :=
  match a.operands with
  | target :: code :: data :: first :: others =>
    some { target, code, data, inputs := first :: others, map := a.has "map", verbose := a.has "verbose" }
  | _ => none

/-- The bases, and the files to link. -/
def layout (r : LinkRequest) : Job (Bases × List String) := do
  let base (what text : String) : Job UInt16 :=
    match address? text with
    | some v => pure v
    | none => Job.fail (.badAddressArgument what text)
  let code ← base "code" r.code
  let data ← base "data" r.data
  let (zeroPage, files) := match r.inputs with
    | first :: files =>
      match address? first with
      | some v => (v, files)
      | none => (0, first :: files)
    | [] => (0, [])
  if files.isEmpty then Job.fail .nothingToLink
  return (⟨code, data, zeroPage⟩, files)

def isLibrary (name : String) : Bool := (Path.extension? ⟨name⟩).map Text.lower == some "lib"

/-- Loads a file into the linker. -/
def load (l : Linker) (name : String) : Job Linker := do
  if isLibrary name then return l.addLibrary name (← Job.readWith Library.ofBytes ⟨name⟩)
  else return l.addObject name (← Job.readWith Object.ofBytes ⟨name⟩)

/-- Loads files in order; what the linker has to say is said as it goes. -/
def loadAll (verbose : Bool) (l : Linker) : List String → Job Linker
  | [] => return l
  | name :: rest => do
    let l ← load l name
    Job.sayAll verbose (l.journal.reverse.map LinkEvent.message)
    loadAll verbose { l with journal := [] } rest

def run (r : LinkRequest) : Job Unit := do
  let (bases, files) ← r.layout
  let linker ← loadAll r.verbose { bases } files
  let linker := linker.finish
  Job.sayAll r.verbose (linker.journal.reverse.map LinkEvent.message)
  let output ← Job.liftAll linker.result
  let target : Path := ⟨r.target⟩
  let format := Target.ofPath target
  let (base, image) := output.image
  if image.isEmpty then
    Job.warning ("code and data segments are empty; " ++ r.target ++ " will hold no bytes")
  Job.writeFile target (← Job.lift (format.render base image))
  Job.info ("Wrote " ++ r.target ++ " (" ++ format.name ++ ", " ++ toString image.size ++ " bytes at $"
    ++ Numeral.hex 4 base.toNat ++ ") from " ++ toString output.modules.size ++ " modules")
  Job.writeText (target.withExtension "map") output.mapText
  Job.print (if r.map then output.mapText else "")

end LinkRequest

end Asm65.Command
