import Asm65.Assembly.Run
import Asm65.Command.Arguments
import Asm65.Command.Job
import Asm65.Command.Value
import Asm65.Object.Codec

/-!
# The assembler on the command line

Writes an object file and a listing beside it.
-/

namespace Asm65.Command
set_option autoImplicit false

structure AssembleRequest where
  file : String
  cpu : Cpu
  options : Options
  /-- Print the listing. -/
  list : Bool
  output : Option String
  verbose : Bool

namespace AssembleRequest

def switches : List Switch :=
  [{ name := "cpu", takesValue := true }, { name := "lbr-disable" }, { name := "list", letter := some 'l' },
   { name := "output", letter := some 'o', takesValue := true }, { name := "max-passes", takesValue := true },
   { name := "verbose", letter := some 'v' }]

def usage : String :=
  "[--cpu 6502|65c02] [--lbr-disable] [--max-passes N] [-l] [-v] [-o OBJECT] SOURCE"

def ofArguments (a : Arguments) : Option AssembleRequest := do
  let [file] := a.operands | none
  let cpu ← [Cpu.mos6502, .wdc65c02].find? (·.name == (a.value? "cpu").getD Cpu.mos6502.name)
  let maxPasses ← match a.value? "max-passes" with
    | some text => count? text
    | none => some ({} : Options).maxPasses
  return {
    file, cpu
    options := { longBranches := !a.has "lbr-disable", maxPasses }
    list := a.has "list"
    output := a.value? "output"
    verbose := a.has "verbose" }

/-- The object file to write. -/
def objectPath (r : AssembleRequest) : Path :=
  match r.output with
  | some path => ⟨path⟩
  | none => Path.withExtension ⟨r.file⟩ "obj"

/-- Writes the listing; a failure names the file. -/
def writeListing (p : Path) (text : String) : Job Unit := do
  match (← get).disk.write p text.toUTF8.data with
  | .ok disk => modify fun c => { c with disk }
  | .error failure => Job.fail (.inFile p (.unwritable p failure))

def sizes (o : Object) : String :=
  String.intercalate ", " (Space.all.map fun s => s.name ++ " " ++ toString (o.segment s).size ++ " bytes")

def run (r : AssembleRequest) : Job Unit := do
  Job.info ("Assembling " ++ r.file ++ " for the " ++ r.cpu.name)
  let (outcome, assembler) := (Assembler.new r.cpu r.options (← get).disk).assembleFile ⟨r.file⟩
  Job.sayAll r.verbose (assembler.notes.reverse.map Note.message)
  let assembly ← Job.liftAll outcome
  let bytes ← Job.lift assembly.object.encode
  Job.writeFile r.objectPath bytes.toArray
  let listing := assembly.listing.text assembler.files
  writeListing (r.objectPath.withExtension "lst") listing
  Job.print (if r.list then listing else "")
  Job.info ("Wrote " ++ r.objectPath.text ++ " (" ++ sizes assembly.object ++ ") after "
    ++ toString assembly.passes ++ " passes")

end AssembleRequest

end Asm65.Command
