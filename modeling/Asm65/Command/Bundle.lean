import Asm65.Command.Arguments
import Asm65.Command.Job
import Asm65.Library.Codec

/-!
# The librarian on the command line

Bundles object files into a library.
-/

namespace Asm65.Command
set_option autoImplicit false

structure BundleRequest where
  library : String
  objects : List String
  verbose : Bool

namespace BundleRequest

def switches : List Switch := [{ name := "verbose", letter := some 'v' }]

def usage : String := "[-v] LIBRARY OBJECT..."

def ofArguments (a : Arguments) : Option BundleRequest :=
  match a.operands with
  | library :: first :: others => some { library, objects := first :: others, verbose := a.has "verbose" }
  | _ => none

/-- Reads an object file. -/
def readObject (verbose : Bool) (name : String) : Job Object := do
  let o ← Job.readWith Object.ofBytes ⟨name⟩
  Job.sayAll verbose [name ++ ": " ++ toString o.publics.length ++ " public symbols"]
  return o

def run (r : BundleRequest) : Job Unit := do
  let objects ← r.objects.mapM (readObject r.verbose)
  let library ← Job.lift (Library.ofObjects objects.toArray r.objects)
  let bytes ← Job.lift library.encode
  Job.writeFile ⟨r.library⟩ bytes.toArray
  Job.info ("Wrote " ++ r.library ++ " (" ++ toString library.objects.size ++ " modules, "
    ++ toString library.index.size ++ " symbols)")

end BundleRequest

end Asm65.Command
