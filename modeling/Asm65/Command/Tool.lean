import Asm65.Command.Assemble
import Asm65.Command.Bundle
import Asm65.Command.Link

/-!
# Tools

A tool is a function of its arguments and the files it finds.
-/

namespace Asm65.Command
set_option autoImplicit false

inductive Tool where
  | assembler
  | librarian
  | linker
  deriving DecidableEq

/-- What a tool leaves behind. -/
structure Outcome where
  exitCode : Nat
  output : String
  disk : Disk
  /-- Files or folders that were not found. -/
  missing : List Path := []

namespace Tool

def switches : Tool → List Switch
  | .assembler => AssembleRequest.switches
  | .librarian => BundleRequest.switches
  | .linker => LinkRequest.switches

def usage : Tool → String
  | .assembler => AssembleRequest.usage
  | .librarian => BundleRequest.usage
  | .linker => LinkRequest.usage

/-- The work that arguments ask for. -/
def job (t : Tool) (a : Arguments) : Option (Job Unit) :=
  match t with
  | .assembler => (AssembleRequest.ofArguments a).map (·.run)
  | .librarian => (BundleRequest.ofArguments a).map (·.run)
  | .linker => (LinkRequest.ofArguments a).map (·.run)

/-- Runs a tool. A refused command line is answered by exit code 2, a failed job by 1 with the report as the
last line. -/
def run (t : Tool) (args : List String) (disk : Disk) : Outcome :=
  match (Arguments.read t.switches args).bind t.job with
  | none => { exitCode := 2, output := "", disk }
  | some job =>
    match job { disk } with
    | .ok _ c => { exitCode := 0, output := c.output, disk := c.disk }
    | .error report c =>
      { exitCode := 1, output := c.output ++ report.text ++ "\n", disk := c.disk, missing := report.missing }

end Tool

end Asm65.Command
