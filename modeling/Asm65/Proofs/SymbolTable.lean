import Asm65.Object.Basic
import Asm65.Proofs.Interning

/-!
# Entries of the symbol table

What a definition and a declaration leave in the table, and the table as the object module shows it: by name.
-/

namespace Asm65
set_option autoImplicit false

namespace SymbolTable

variable (t : SymbolTable) (id : SymbolId) (name : String) (a : Address) (pass : Nat)

theorem address_congr {t u : SymbolTable} {id : SymbolId} (h : t.get? id = u.get? id) :
    t.address id = u.address id := by
  simp only [address, h]

theorem address_of_get? {t : SymbolTable} {id : SymbolId} {sym : Symbol} (h : t.get? id = some sym) :
    t.address id = sym.address := by
  simp only [address, h]

/-- A definition that is not refused leaves an entry with its address, under the name that was there before. -/
theorem get?_define_self (h : (t.define id name a pass).1 ≠ .duplicate) :
    (t.define id name a pass).2.get? id =
      some { (t.get? id).getD { id, name, address := a } with address := a, pass := pass } := by
  unfold define at h ⊢
  split
  · rename_i s found
    split
    · simp_all
    · simp [get?, show t.entries[id]? = some s from found]
  · rename_i absent
    simp [get?, show t.entries[id]? = none from absent]

/-- After the first pass, a definition that neither is refused nor moves its symbol finds the address there. -/
theorem exists_of_define_eq_unchanged (later : 2 ≤ pass) (h : (t.define id name a pass).1 = .unchanged) :
    ∃ s, t.get? id = some s ∧ s.address = a := by
  unfold define at h
  split at h
  · rename_i s found
    split at h
    · cases h
    · dsimp only at h
      split at h
      · exact ⟨s, found, ‹_›⟩
      · cases h
  · rw [if_pos (by omega : pass > 1)] at h
    cases h

theorem get?_declarePublic_self :
    (t.declarePublic id name).get? id =
      some { (t.get? id).getD { id, name, address := .undefined } with isPublic := true } := by
  simp [declarePublic, get?]

theorem get?_declarePublic_of_ne {other : SymbolId} (h : id ≠ other) :
    (t.declarePublic id name).get? other = t.get? other := by
  simp [declarePublic, get?, Std.ExtTreeMap.getElem?_insert, h]

/-- Declaring a symbol public does not change its address. -/
@[simp] theorem address_declarePublic (other : SymbolId) :
    (t.declarePublic id name).address other = t.address other := by
  by_cases h : id = other
  · subst h
    simp only [address, get?_declarePublic_self]
    cases t.get? id <;> rfl
  · exact address_congr (t.get?_declarePublic_of_ne id name h)

/-- Defining a symbol loses no entry. -/
theorem isSome_get?_define {other : SymbolId} (h : (t.get? other).isSome) :
    ((t.define id name a pass).2.get? other).isSome := by
  by_cases same : id = other
  · subst same
    unfold define
    split
    · split
      · exact h
      · simp [get?]
    · simp [get?]
  · rwa [t.get?_define_of_ne name a pass same]

/-- Declaring a symbol public loses no entry. -/
theorem isSome_get?_declarePublic {other : SymbolId} (h : (t.get? other).isSome) :
    ((t.declarePublic id name).get? other).isSome := by
  by_cases same : id = other
  · subst same
    simp [t.get?_declarePublic_self]
  · rwa [t.get?_declarePublic_of_ne _ _ same]

/-- After a definition that is not refused, an entry is one of before or the one defined, which keeps the name it
had. -/
theorem of_get?_define (h : (t.define id name a pass).1 ≠ .duplicate) {k : SymbolId} {sym : Symbol}
    (found : (t.define id name a pass).2.get? k = some sym) :
    t.get? k = some sym ∨ k = id ∧ sym.address = a ∧ sym.pass = pass
      ∧ (sym.name = name ∨ ∃ old, t.get? id = some old ∧ old.name = sym.name) := by
  by_cases same : id = k
  · subst same
    rw [t.get?_define_self id name a pass h] at found
    cases found
    refine .inr ⟨rfl, rfl, rfl, ?_⟩
    cases t.get? id with
    | none => exact .inl rfl
    | some old => exact .inr ⟨old, rfl, rfl⟩
  · rw [t.get?_define_of_ne name a pass same] at found
    exact .inl found

/-- After declaring a symbol public, an entry has what it had before, or is a new one that no pass has defined. -/
theorem of_get?_declarePublic {k : SymbolId} {sym : Symbol} (found : (t.declarePublic id name).get? k = some sym) :
    (∃ old, t.get? k = some old ∧ old.pass = sym.pass ∧ old.name = sym.name ∧ old.address = sym.address)
      ∨ k = id ∧ sym.name = name ∧ sym.pass = 0 ∧ sym.address = .undefined ∧ t.get? id = none := by
  by_cases same : id = k
  · subst same
    rw [t.get?_declarePublic_self] at found
    cases found
    cases t.get? id with
    | none => exact .inr ⟨rfl, rfl, rfl, rfl, rfl⟩
    | some old => exact .inl ⟨old, rfl, rfl, rfl, rfl⟩
  · rw [t.get?_declarePublic_of_ne id name same] at found
    exact .inl ⟨sym, found, rfl, rfl, rfl⟩

theorem of_get?_erase {t : SymbolTable} {id k : SymbolId} {sym : Symbol} (found : (t.erase id).get? k = some sym) :
    t.get? k = some sym := by
  by_cases same : id = k
  · subst same
    simp at found
  · rwa [t.get?_erase_of_ne same] at found

/-- The symbols with names are those under the numbers of names. -/
theorem getElem?_named {t : SymbolTable} {id : SymbolId} {sym : Symbol} :
    t.named[id]? = some sym ↔ t.get? id = some sym ∧ id.toNat < autoLabelBase := by
  rw [named, Std.ExtTreeMap.getElem?_filter', Option.filter_eq_some_iff, decide_eq_true_eq]
  rfl

/-- Entries stand under the numbers of their names; labels of blocks have a place, and no address is a distance. -/
structure Matches (t : SymbolTable) (identifiers : IdentifierTable) : Prop where
  named {id : SymbolId} {sym : Symbol} (h : t.get? id = some sym) (low : id.toNat < autoLabelBase) :
    identifiers.ids[sym.name]? = some id
  label {id : SymbolId} {sym : Symbol} (h : t.get? id = some sym) (high : autoLabelBase ≤ id.toNat) :
    ∃ space v, sym.address = .inSpace space v
  direct {id : SymbolId} {sym : Symbol} (h : t.get? id = some sym) : sym.address.relative = false

theorem matches_empty (identifiers : IdentifierTable) : Matches {} identifiers where
  named h := by simp [get?] at h
  label h := by simp [get?] at h
  direct h := by simp [get?] at h

namespace Matches

variable {t : SymbolTable} {identifiers : IdentifierTable} {id : SymbolId} {name : String} {a : Address} {pass : Nat}

/-- A definition that is not refused keeps entries under the numbers of their names. -/
theorem define (ok : t.Matches identifiers) (known : id.toNat < autoLabelBase → identifiers.ids[name]? = some id)
    (placed : autoLabelBase ≤ id.toNat → ∃ space v, a = .inSpace space v) (direct : a.relative = false)
    (h : (t.define id name a pass).1 ≠ .duplicate) : (t.define id name a pass).2.Matches identifiers := by
  constructor
  · intro k sym found low
    obtain before | ⟨rfl, -, -, rfl | ⟨old, before, same⟩⟩ := t.of_get?_define id name a pass h found
    · exact ok.named before low
    · exact known low
    · exact same ▸ ok.named before low
  · intro k sym found high
    obtain before | ⟨rfl, rfl, -⟩ := t.of_get?_define id name a pass h found
    · exact ok.label before high
    · exact placed high
  · intro k sym found
    obtain before | ⟨-, rfl, -⟩ := t.of_get?_define id name a pass h found
    · exact ok.direct before
    · exact direct

/-- So does a public declaration, which may enter a name without a value. -/
theorem declarePublic (ok : t.Matches identifiers) (low : id.toNat < autoLabelBase)
    (known : identifiers.ids[name]? = some id) : (t.declarePublic id name).Matches identifiers := by
  constructor
  · intro k sym found below
    obtain ⟨old, before, -, same, -⟩ | ⟨rfl, rfl, -⟩ := t.of_get?_declarePublic id name found
    · exact same ▸ ok.named before below
    · exact known
  · intro k sym found high
    obtain ⟨old, before, -, -, same⟩ | ⟨rfl, -⟩ := t.of_get?_declarePublic id name found
    · exact same ▸ ok.label before high
    · exact absurd low (Nat.not_lt.2 high)
  · intro k sym found
    obtain ⟨old, before, -, -, same⟩ | ⟨-, -, -, unknown, -⟩ := t.of_get?_declarePublic id name found
    · exact same ▸ ok.direct before
    · rw [unknown]
      rfl

theorem erase (ok : t.Matches identifiers) : (t.erase id).Matches identifiers :=
  ⟨fun found => ok.named (of_get?_erase found), fun found => ok.label (of_get?_erase found),
    fun found => ok.direct (of_get?_erase found)⟩

theorem mono (ok : t.Matches identifiers) {after : IdentifierTable}
    (keep : ∀ {n : String} {k : SymbolId}, identifiers.ids[n]? = some k → after.ids[n]? = some k) : t.Matches after :=
  ⟨fun found low => keep (ok.named found low), ok.label, ok.direct⟩

end Matches

/-- No entry is from a later pass. -/
def Dated (t : SymbolTable) (pass : Nat) : Prop := ∀ id sym, t.get? id = some sym → sym.pass ≤ pass

theorem dated_empty (pass : Nat) : Dated {} pass := by
  intro id sym h
  simp [get?] at h

namespace Dated

variable {t : SymbolTable} {pass : Nat}

theorem mono (dated : t.Dated pass) {later : Nat} (le : pass ≤ later) : t.Dated later :=
  fun id sym h => Nat.le_trans (dated id sym h) le

theorem define (dated : t.Dated pass) {id : SymbolId} {name : String} {a : Address}
    (h : (t.define id name a pass).1 ≠ .duplicate) : (t.define id name a pass).2.Dated pass := by
  intro k sym found
  obtain before | ⟨-, -, now, -⟩ := t.of_get?_define id name a pass h found
  · exact dated k sym before
  · exact Nat.le_of_eq now

theorem declarePublic (dated : t.Dated pass) (id : SymbolId) (name : String) :
    (t.declarePublic id name).Dated pass := by
  intro k sym found
  obtain ⟨old, before, same, -⟩ | ⟨-, -, never, -⟩ := t.of_get?_declarePublic id name found
  · exact same ▸ dated k old before
  · exact never ▸ Nat.zero_le pass

theorem erase (dated : t.Dated pass) (id : SymbolId) : (t.erase id).Dated pass :=
  fun k sym found => dated k sym (of_get?_erase found)

end Dated

end SymbolTable

/-- The address of the symbol with this name. -/
def Object.address? (o : Object) (name : String) : Option Address :=
  (o.symbols.toList.find? (·.2.name == name)).map (·.2.address)

/-- In a module, a name finds the entry under its number. -/
theorem Object.address?_eq {o : Object} {t : SymbolTable} {identifiers : IdentifierTable} {name : String}
    {id : SymbolId} (ho : o.symbols = t.named) (ok : t.Matches identifiers) (numbered : identifiers.Numbered)
    (known : identifiers.ids[name]? = some id) : o.address? name = (t.get? id).map (·.address) := by
  have low := numbered.toNat_lt known
  -- an entry of that name can only stand under that number
  have entry {k : SymbolId} {sym : Symbol} (mem : (k, sym) ∈ o.symbols.toList) (hn : sym.name = name) :
      k = id ∧ t.get? id = some sym := by
    rw [Std.ExtTreeMap.mem_toList_iff_getElem?_eq_some, ho, SymbolTable.getElem?_named] at mem
    obtain ⟨found, below⟩ := mem
    have number := ok.named found below
    rw [hn, known] at number
    cases number
    exact ⟨rfl, found⟩
  unfold Object.address?
  cases hf : o.symbols.toList.find? (·.2.name == name) with
  | some found =>
    obtain ⟨k, sym⟩ := found
    have hn : sym.name = name := by simpa using List.find?_some hf
    rw [(entry (List.mem_of_find?_eq_some hf) hn).2]
    rfl
  | none =>
    cases hg : t.get? id with
    | none => rfl
    | some sym =>
      have number := ok.named hg low
      have same : sym.name = name := numbered.unique number known
      have mem : (id, sym) ∈ o.symbols.toList := by
        rw [Std.ExtTreeMap.mem_toList_iff_getElem?_eq_some, ho, SymbolTable.getElem?_named]
        exact ⟨hg, low⟩
      have := List.find?_eq_none.1 hf _ mem
      simp [same] at this

end Asm65
