import Asm65.Link.Basic

/-!
# Pulling library modules

A library module is loaded only if it exports a name that is still wanted, and loading it may want new
names, so the search repeats until no shelf offers anything. Every round but the last takes a module from a
shelf, so there are at most as many rounds as modules, and one more.
-/

namespace Asm65.Linker
set_option autoImplicit false

/-- The module that the first shelf in order offers for a name: its name, the module, and the shelves
without it. -/
def offer? (name : String) : List Shelf → Option (String × Object × List Shelf)
  | [] => none
  | s :: rest =>
    match s.provider? name with
    | some i =>
      match s.take? i with
      | some (o, s') => some (s.moduleName i, o, s' :: rest)
      | none => none
    | none => (offer? name rest).map fun (m, o, shelves) => (m, o, s :: shelves)

/-- Loads the module offered for a name, if the name is still wanted; says whether one was. -/
def pull (l : Linker) (name : String) : Linker × Bool :=
  match l.globals[name]? with
  | some (.wanted _) =>
    match offer? name l.shelves with
    | some (module, o, shelves) =>
      ((({ l with shelves } : Linker).log (.resolves module name)).addObject module o, true)
    | none => (l, false)
  | _ => (l, false)

/-- Pulls for each name in turn; says whether any module was loaded. -/
def pullEach (l : Linker) (names : List String) : Linker × Bool :=
  names.foldl (fun (l, any) name => let (l, one) := l.pull name; (l, any || one)) (l, false)

/-- Rounds of pulling for all wanted names, until one loads nothing. -/
def pullRounds : Nat → Linker → Linker
  | 0, l => l
  | n + 1, l =>
    match l.pullEach l.wanted with
    | (l, true) => pullRounds n l
    | (l, false) => l

/-- How many modules are left on the shelves. -/
def modulesLeft (l : Linker) : Nat := l.shelves.foldl (fun n shelf => n + shelf.left) 0

/-- Pulls library modules until no shelf offers one for a wanted name. -/
def pullAll (l : Linker) : Linker := pullRounds (l.modulesLeft + 1) l

end Asm65.Linker
