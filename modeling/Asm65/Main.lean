import Asm65.Command.Tool

/-!
# The program

`asm`, `lib` and `link` with the arguments of the three tools. A tool works on a value that holds files; it is
run again whenever it asks for a file or folder that exists and was not in the value yet.
-/

namespace Asm65.Main
set_option autoImplicit false
open Command

def tool? : String → Option Tool
  | "asm" => some .assembler
  | "lib" => some .librarian
  | "link" => some .linker
  | _ => none

/-- The disk with a file, or with the folder around it, if it exists. -/
def fetch (disk : Disk) (p : Path) : IO Disk := do
  try
    return disk.add p (← IO.FS.readBinFile p.text).data
  catch _ =>
    let folder : String := match p.parent? with
      | some f => if f.text.isEmpty then "." else f.text
      | none => "."
    try
      let real ← IO.FS.realPath folder
      if ← real.isDir then return disk.addFolder ⟨folder⟩ else return disk
    catch _ => return disk

/-- Runs a tool until it asks for nothing new. -/
partial def settle (t : Tool) (args : List String) (disk : Disk) (asked : List Path) : IO (Disk × Outcome) := do
  let outcome := t.run args disk
  let fresh := outcome.missing.filter (!asked.contains ·)
  if fresh.isEmpty then return (disk, outcome)
  settle t args (← fresh.foldlM fetch disk) (fresh ++ asked)

def runTool (t : Tool) (args : List String) : IO UInt32 := do
  let (disk, outcome) ← settle t args {} []
  for (name, bytes) in outcome.disk.changes disk do
    IO.FS.writeBinFile name ⟨bytes⟩
  IO.print outcome.output
  if outcome.exitCode = 2 then IO.eprintln ("usage: " ++ t.usage)
  return outcome.exitCode.toUInt32

end Asm65.Main

def main (args : List String) : IO UInt32 :=
  match args.head?.bind Asm65.Main.tool? with
  | some t => Asm65.Main.runTool t args.tail
  | none => do
    IO.eprintln "usage: (asm | lib | link) ARGUMENT..."
    return 2
