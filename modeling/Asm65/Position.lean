/-!
# Source positions

A position names a file of the source table, a line and a column, both from one; columns count bytes.
Positions are ordered by file, line and column, which is the order of diagnostics.
-/

namespace Asm65
set_option autoImplicit false

structure Position where
  file : Nat
  line : Nat
  column : Nat
  deriving Inhabited

namespace Position

theorem eq_iff {p q : Position} : (p.file = q.file ∧ p.line = q.line ∧ p.column = q.column) ↔ p = q := by
  cases p; cases q; simp

instance : DecidableEq Position := fun _ _ => decidable_of_iff _ eq_iff

instance : Ord Position where
  compare := compareLex (compareOn Position.file) (compareLex (compareOn Position.line) (compareOn Position.column))

instance : Std.TransOrd Position :=
  inferInstanceAs (Std.TransCmp
    (compareLex (compareOn Position.file) (compareLex (compareOn Position.line) (compareOn Position.column))))

instance : Std.LawfulEqOrd Position where
  eq_of_compare {p q} h := by
    obtain ⟨f, l, c⟩ := p
    obtain ⟨f', l', c'⟩ := q
    change (compare f f').then ((compare l l').then (compare c c')) = .eq at h
    simpa [Ordering.then_eq_eq] using h

/-- Line and column as messages show them. -/
def text (p : Position) : String := toString p.line ++ ":" ++ toString p.column

end Position

end Asm65
