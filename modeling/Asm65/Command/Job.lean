import Asm65.Diagnostics

/-!
# Jobs

A job reads and writes files, says what it does, and may fail with a report.
-/

namespace Asm65.Command
set_option autoImplicit false

/-- Why a job failed. -/
inductive Report where
  | error (e : Error)
  | diagnostics (d : Diagnostics)

namespace Report

def text : Report → String
  | .error e => e.text
  | .diagnostics d => d.text

def causes : Report → List Cause
  | .error e => [e.cause]
  | .diagnostics d => d.toList.map (·.cause)

/-- The files or folders that the job did not find. -/
def missing (r : Report) : List Path :=
  r.causes.filterMap fun
    | .unreadable p .missing => some p
    | .unwritable p .missing => some p
    | .inFile _ (.unwritable p .missing) => some p
    | _ => none

end Report

/-- What a job has said and written so far. -/
structure Console where
  disk : Disk
  output : String := ""

abbrev Job := EStateM Report Console

namespace Job

def fail {α : Type} (cause : Cause) : Job α := throw (.error ⟨cause, none⟩)

def print (text : String) : Job Unit := modify fun c => { c with output := c.output ++ text }

def say (line : String) : Job Unit := print (line ++ "\n")

/-- Lines that only a verbose job says. -/
def sayAll (verbose : Bool) (lines : List String) : Job Unit :=
  print (if verbose then String.join (lines.map (· ++ "\n")) else "")

def info (line : String) : Job Unit := say (Diagnostics.coloured 94 "INFO" ++ ": " ++ line)

def warning (line : String) : Job Unit := say (Diagnostics.coloured 93 "WARNING" ++ ": " ++ line)

/-- The value, or the job fails for its cause. -/
def lift {α : Type} : Except Cause α → Job α
  | .ok a => pure a
  | .error cause => fail cause

/-- The value, or the job fails with its diagnostics. -/
def liftAll {α : Type} : Except Diagnostics α → Job α
  | .ok a => pure a
  | .error d => throw (.diagnostics d)

def readFile (p : Path) : Job (Array UInt8) := do
  lift (((← get).disk.read p).mapError (.unreadable p))

/-- A value decoded from a file. -/
def readWith {α : Type} (decode : List UInt8 → Except Cause α) (p : Path) : Job α := do
  let bytes ← readFile p
  lift ((decode bytes.toList).mapError (.inFile p))

def writeFile (p : Path) (bytes : Array UInt8) : Job Unit := do
  match (← get).disk.write p bytes with
  | .ok disk => modify fun c => { c with disk }
  | .error failure => fail (.unwritable p failure)

def writeText (p : Path) (text : String) : Job Unit := writeFile p text.toUTF8.data

end Job

end Asm65.Command
