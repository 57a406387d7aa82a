import Asm65.Error
import Std.Data.ExtTreeMap

/-!
# Diagnostics

The errors collected over a run. Of the errors at one position the first is kept, so a mistake seen again
in a later pass is reported once; an error without position is kept once per category and message.
They are listed by position, then those without position in the order recorded.
-/

namespace Asm65
set_option autoImplicit false

structure Diagnostics where
  positioned : Std.ExtTreeMap Position Error compare := ∅
  others : Array Error := #[]
  /-- Names of the source files, for positions. -/
  files : List String := []
  /-- How often an error was recorded, whether it was known or not. -/
  reports : Nat := 0

namespace Diagnostics

/-- Whether recording `e` adds it. -/
def isNew (d : Diagnostics) (e : Error) : Bool :=
  match e.pos with
  | some pos => !d.positioned.contains pos
  | none => !d.others.any fun o => o.category == e.category && o.message == e.message

/-- Adds an error unless one is known for its position or with its message. -/
def record (d : Diagnostics) (e : Error) : Diagnostics :=
  let reports := d.reports + 1
  if d.isNew e then
    match e.pos with
    | some pos => { d with positioned := d.positioned.insert pos e, reports }
    | none => { d with others := d.others.push e, reports }
  else { d with reports }

def ofError (e : Error) : Diagnostics := ({} : Diagnostics).record e

def size (d : Diagnostics) : Nat := d.positioned.size + d.others.size

def isEmpty (d : Diagnostics) : Bool := d.size == 0

/-- By position, then those without position in the order recorded. -/
def toList (d : Diagnostics) : List Error := d.positioned.values ++ d.others.toList

def hasFatal (d : Diagnostics) : Bool := d.toList.any (·.isFatal)

def countOf (d : Diagnostics) (c : Category) : Nat := d.toList.countP (·.category == c)

/-- Text between the escape sequences that switch a colour on and off. -/
def coloured (colour : Nat) (s : String) : String :=
  "\x1b[" ++ toString colour ++ "m" ++ s ++ "\x1b[0m"

/-- One line of the report. -/
def line (d : Diagnostics) (e : Error) : String :=
  let body := coloured 91 e.category.label ++ ": " ++ e.message ++ "\n"
  match e.pos with
  | some p => d.files.getD p.file "<source>" ++ ":" ++ p.text ++ ": " ++ body
  | none => body

/-- The report: one line per error and their number. -/
def text (d : Diagnostics) : String :=
  String.join (d.toList.map d.line) ++ toString d.size ++ " error(s)"

theorem isEmpty_of_contains {d : Diagnostics} {pos : Position} (h : d.positioned.contains pos = true) :
    d.isEmpty = false := by
  have : d.positioned.size ≠ 0 := by
    intro zero
    rw [Std.ExtTreeMap.eq_empty_iff_size_eq_zero.2 zero] at h
    simp at h
  simp [isEmpty, size, this]

/-- After recording an error there is one. -/
@[simp] theorem isEmpty_record (d : Diagnostics) (e : Error) : (d.record e).isEmpty = false := by
  unfold record
  split
  · split
    · exact isEmpty_of_contains Std.ExtTreeMap.contains_insert_self
    · simp [isEmpty, size]
  · rename_i old
    unfold isNew at old
    split at old
    · exact isEmpty_of_contains (by simpa using old)
    · obtain ⟨i, hi, -⟩ : ∃ i, ∃ h : i < d.others.size, _ := by simpa using old
      simp only [isEmpty, size, beq_eq_false_iff_ne]
      omega

@[simp] theorem reports_record (d : Diagnostics) (e : Error) : (d.record e).reports = d.reports + 1 := by
  unfold record
  dsimp only
  split
  · split <;> rfl
  · rfl

theorem reports_le_record (d : Diagnostics) (e : Error) : d.reports ≤ (d.record e).reports := by
  rw [reports_record]
  exact Nat.le_succ _

end Diagnostics

/-- An error as a developer's dump shows it. -/
def Error.debugText (e : Error) : String :=
  Diagnostics.coloured 91 "relasm::Error" ++ ": " ++ e.category.name ++ ": " ++ e.message

end Asm65
