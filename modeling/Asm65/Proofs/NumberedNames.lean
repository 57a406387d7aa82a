import Asm65.Proofs.StatementParts

/-!
# Asking for numbers

The number of a new name is not kept by a counter: it is one more than the number of names in the table. That no number
is given twice rests on the numbers given so far being exactly 1 up to the size of the table. They are, whatever is
asked for and in whatever order, until the numbers below those of the labels of blocks are used up. From then on new
names are refused, and names that have a number keep it (`numbering_of_requests`).
-/

namespace Asm65
set_option autoImplicit false

namespace IdentifierTable

variable {t after : IdentifierTable} {name : String} {id : SymbolId}

/-- What the table holds afterwards it held before, or was asked for. -/
theorem of_getElem?_intern (h : t.intern name = .ok (id, after)) {other : String} {k : SymbolId}
    (found : after.ids[other]? = some k) : t.ids[other]? = some k ∨ (other = name ∧ k = id) := by
  obtain ⟨-, rfl⟩ | ⟨-, -, -, rfl⟩ := of_intern h
  · exact .inl found
  · rw [Std.ExtTreeMap.getElem?_insert] at found
    split at found
    · rename_i same
      cases found
      exact .inr ⟨(Std.LawfulEqCmp.eq_of_compare same).symm, rfl⟩
    · exact .inl found

/-- All numbers up to the size of the table have been given. -/
def Dense (t : IdentifierTable) : Prop :=
  ∀ k, 1 ≤ k → k ≤ t.ids.size → ∃ name : String, t.ids[name]? = some (UInt16.ofNat k)

theorem dense_empty : Dense {} := fun _ one none => absurd (Nat.le_trans one none) (by decide)

theorem Dense.intern (dense : t.Dense) (h : t.intern name = .ok (id, after)) : after.Dense := by
  intro k one le
  by_cases old : k ≤ t.ids.size
  · obtain ⟨other, known⟩ := dense k one old
    exact ⟨other, getElem?_intern_of_some h known⟩
  · obtain ⟨-, rfl⟩ | ⟨absent, -, next, rfl⟩ := of_intern h
    · exact absurd le old
    · rw [size_insert_of_none absent] at le
      have last : k = t.ids.size + 1 := by omega
      exact ⟨name, by rw [getElem?_of_intern h, next, last]⟩

theorem intern_of_some (known : t.ids[name]? = some id) : t.intern name = .ok (id, t) := by
  unfold intern
  rw [known]

/-- Only a new name is refused, and only once the table has as many names as there are numbers. -/
theorem intern_eq_error_iff {cause : Cause} :
    t.intern name = .error cause ↔
      t.ids[name]? = none ∧ autoLabelBase ≤ t.ids.size + 1 ∧ cause = .tooManyIdentifiers := by
  cases known : t.ids[name]? with
  | some id =>
    rw [intern_of_some known]
    simp
  | none =>
    unfold intern
    rw [known]
    dsimp only
    split
    · rename_i room
      simp [Nat.not_le.2 room]
    · rename_i full
      simp [Nat.not_lt.1 full, eq_comm]

/-- The table is full exactly if all numbers below those of labels have been given. -/
theorem full_iff (numbered : t.Numbered) (dense : t.Dense) :
    autoLabelBase ≤ t.ids.size + 1 ↔
      ∀ k : SymbolId, 1 ≤ k.toNat → k.toNat < autoLabelBase → ∃ name : String, t.ids[name]? = some k := by
  constructor
  · intro full k one low
    obtain ⟨name, known⟩ := dense k.toNat one (by omega)
    rw [UInt16.ofNat_toNat] at known
    exact ⟨name, known⟩
  · intro taken
    obtain ⟨name, known⟩ := taken (.ofNat (autoLabelBase - 1)) (by decide) (by decide)
    have last : autoLabelBase - 1 ≤ t.ids.size := (numbered.range known).2
    omega

end IdentifierTable

/-- A request for a number: that of a name, or a new one for a label of a block. -/
inductive Request where
  | name (name : String) (pos : Position)
  | label

def Request.answer : Request → Asm SymbolId
  | .name n pos => Asm.intern n pos
  | .label => Asm.newLabel

namespace Assembler

variable {s : Assembler} {requests : List Request} {i j : Nat} {n : String} {k : SymbolId}

/-- The state before the request with this number, whatever came of the earlier ones. -/
def before (s : Assembler) (requests : List Request) (i : Nat) : Assembler :=
  (requests.take i).foldl (fun s q => leftBy (q.answer s)) s

/-- The request with this number is answered with `k`. -/
def Given (s : Assembler) (requests : List Request) (i : Nat) (q : Request) (k : SymbolId) : Prop :=
  requests[i]? = some q ∧ ∃ t, q.answer (s.before requests i) = .ok k t

/-- The numbers given on request are one for each name, and apart from those of labels. -/
structure Numbering (s : Assembler) (requests : List Request) : Prop where
  /-- Two names get the same number exactly if they are the same. -/
  eq_iff {i j : Nat} {m n : String} {p p' : Position} {k l : SymbolId} (first : s.Given requests i (.name m p) k)
    (second : s.Given requests j (.name n p') l) : k = l ↔ m = n
  /-- A number once given stays that of its name. -/
  stays {i j : Nat} {n : String} {p : Position} {k : SymbolId} (given : s.Given requests i (.name n p) k)
    (later : i < j) (p' : Position) : Asm.intern n p' (s.before requests j) = .ok k (s.before requests j)
  range {i : Nat} {n : String} {p : Position} {k : SymbolId} (given : s.Given requests i (.name n p) k) :
    1 ≤ k.toNat ∧ k.toNat ≤ autoLabelBase - 1
  /-- No label of a block has the number of a name. -/
  apart {i j : Nat} {n : String} {p : Position} {k l : SymbolId} (given : s.Given requests i (.name n p) k)
    (label : s.Given requests j .label l) : k ≠ l
  /-- A name is refused exactly if it has no number and all numbers are taken. -/
  refused_iff {i : Nat} {n : String} {p : Position} :
    (∃ e t, Asm.intern n p (s.before requests i) = .error e t) ↔
      (∀ j < i, ∀ p' k, ¬s.Given requests j (.name n p') k)
        ∧ ∀ k : SymbolId, 1 ≤ k.toNat → k.toNat < autoLabelBase → ∃ j < i, ∃ m p', s.Given requests j (.name m p') k
  /-- A request that fails changes nothing. -/
  unchanged {i : Nat} {q : Request} {e : Error} {t : Assembler}
    (failed : q.answer (s.before requests i) = .error e t) : t = s.before requests i

/-! ### One request -/

/-- What comes of a request. -/
inductive Answered (s : Assembler) : Request → EStateM.Result Error Assembler SymbolId → Prop where
  | named {n : String} {p : Position} {k : SymbolId} {identifiers : IdentifierTable}
    (h : s.identifiers.intern n = .ok (k, identifiers)) : Answered s (.name n p) (.ok k { s with identifiers })
  | refused {n : String} {p : Position} {cause : Cause} (h : s.identifiers.intern n = .error cause) :
    Answered s (.name n p) (.error (.at_ cause p) s)
  | labelled (room : s.nextLabel < 0x10000) :
    Answered s .label (.ok (.ofNat s.nextLabel)
      (log { s with nextLabel := s.nextLabel + 1 } (.label (.ofNat s.nextLabel))))
  | exhausted {e : Error} : Answered s .label (.error e s)

theorem answered (s : Assembler) (q : Request) : Answered s q (q.answer s) := by
  cases q with
  | name n p =>
    show Answered s _ (Asm.intern n p s)
    unfold Asm.intern
    cases h : s.identifiers.intern n with
    | ok given => exact .named h
    | error cause => exact .refused h
  | label =>
    show Answered s _ (Asm.newLabel s)
    unfold Asm.newLabel
    split
    · rename_i room
      exact .labelled room
    · exact .exhausted

/-- Names have the numbers from 1 on, and labels those from `autoLabelBase` on. -/
structure Regular (s : Assembler) : Prop where
  numbered : s.identifiers.Numbered
  dense : s.identifiers.Dense
  labels : autoLabelBase ≤ s.nextLabel

theorem Regular.answer (regular : s.Regular) (q : Request) : (leftBy (q.answer s)).Regular := by
  have answered := s.answered q
  generalize q.answer s = result at answered
  cases answered with
  | named h => exact ⟨regular.numbered.intern h, regular.dense.intern h, regular.labels⟩
  | labelled => exact ⟨regular.numbered, regular.dense, Nat.le_succ_of_le regular.labels⟩
  | refused | exhausted => exact regular

/-- A name that has a number keeps it. -/
theorem known_answer (known : s.identifiers.ids[n]? = some k) (q : Request) :
    (leftBy (q.answer s)).identifiers.ids[n]? = some k := by
  have answered := s.answered q
  generalize q.answer s = result at answered
  cases answered with
  | named h => exact IdentifierTable.getElem?_intern_of_some h known
  | refused | labelled | exhausted => exact known

/-- A name in the table was there before, or has just been asked for. -/
theorem known_or_asked (q : Request) (known : (leftBy (q.answer s)).identifiers.ids[n]? = some k) :
    s.identifiers.ids[n]? = some k ∨ ∃ p t, q = .name n p ∧ q.answer s = .ok k t := by
  have answered := s.answered q
  generalize q.answer s = result at answered known ⊢
  cases answered with
  | named h =>
    obtain old | ⟨rfl, rfl⟩ := IdentifierTable.of_getElem?_intern h known
    · exact .inl old
    · exact .inr ⟨_, _, rfl, rfl⟩
  | refused | labelled | exhausted => exact .inl known

/-! ### All requests -/

theorem before_succ {q : Request} (asked : requests[i]? = some q) :
    s.before requests (i + 1) = leftBy (q.answer (s.before requests i)) := by
  unfold before
  rw [List.take_add_one, asked, Option.toList_some, List.foldl_append]
  rfl

theorem before_succ_of_none (ended : requests[i]? = none) : s.before requests (i + 1) = s.before requests i := by
  unfold before
  rw [List.take_add_one, ended, Option.toList_none, List.append_nil]

/-- What every request keeps stays from one request to any later one. -/
theorem before_of_le {P : Assembler → Prop} (keeps : ∀ (s : Assembler) (q : Request), P s → P (leftBy (q.answer s)))
    (now : P (s.before requests i)) (le : i ≤ j) : P (s.before requests j) := by
  induction le with
  | refl => exact now
  | @step j _ ih =>
    cases asked : requests[j]? with
    | none =>
      rw [before_succ_of_none asked]
      exact ih
    | some q =>
      rw [before_succ asked]
      exact keeps _ q ih

theorem Regular.before (regular : s.Regular) (requests : List Request) (i : Nat) : (s.before requests i).Regular :=
  before_of_le (i := 0) (fun _ q now => now.answer q) regular (Nat.zero_le i)

/-- A name that was given a number is in the table from then on. -/
theorem Given.known {p : Position} (given : s.Given requests i (.name n p) k) (later : i < j) :
    (s.before requests j).identifiers.ids[n]? = some k := by
  obtain ⟨asked, t, run⟩ := given
  refine before_of_le (P := fun s => s.identifiers.ids[n]? = some k) (fun _ q now => known_answer now q) ?_ later
  have answered := (s.before requests i).answered (.name n p)
  rw [before_succ asked, run]
  rw [run] at answered
  cases answered with
  | named h => exact IdentifierTable.getElem?_of_intern h

/-- The names in the table are those that were given a number. -/
theorem known_iff (fresh : s.identifiers = {}) :
    (s.before requests i).identifiers.ids[n]? = some k ↔ ∃ j < i, ∃ p, s.Given requests j (.name n p) k := by
  constructor
  · intro known
    induction i with
    | zero =>
      have none : s.identifiers.ids[n]? = some k := known
      rw [fresh] at none
      simp at none
    | succ i ih =>
      have earlier (known : (s.before requests i).identifiers.ids[n]? = some k) :
          ∃ j < i + 1, ∃ p, s.Given requests j (.name n p) k := by
        obtain ⟨j, lt, given⟩ := ih known
        exact ⟨j, Nat.lt_succ_of_lt lt, given⟩
      cases asked : requests[i]? with
      | none =>
        rw [before_succ_of_none asked] at known
        exact earlier known
      | some q =>
        rw [before_succ asked] at known
        obtain old | ⟨p, t, rfl, run⟩ := known_or_asked q known
        · exact earlier old
        · exact ⟨i, Nat.lt_succ_self i, p, asked, t, run⟩
  · rintro ⟨j, lt, p, given⟩
    exact given.known lt

/-- Only a new name can be refused its number, and this if and only if the numbers below those of labels of blocks are
used up. -/
theorem intern_fails_iff {p : Position} :
    (∃ e t, Asm.intern n p s = .error e t) ↔
      s.identifiers.ids[n]? = none ∧ autoLabelBase ≤ s.identifiers.ids.size + 1 := by
  have answered : Answered s (.name n p) (Asm.intern n p s) := s.answered (.name n p)
  constructor
  · rintro ⟨e, t, failed⟩
    rw [failed] at answered
    cases answered with
    | refused h =>
      obtain ⟨new, full, -⟩ := IdentifierTable.intern_eq_error_iff.1 h
      exact ⟨new, full⟩
  · rintro ⟨new, full⟩
    have h := IdentifierTable.intern_eq_error_iff.2 ⟨new, full, rfl⟩
    generalize Asm.intern n p s = result at answered ⊢
    cases answered with
    | named given => cases h.symm.trans given
    | refused => exact ⟨_, _, rfl⟩

/-- A request that fails changes nothing. -/
theorem eq_of_answer_error {q : Request} {e : Error} {t : Assembler} (failed : q.answer s = .error e t) : t = s := by
  have answered := s.answered q
  rw [failed] at answered
  cases answered <;> rfl

/-- A label gets a number that no name has. -/
theorem Regular.le_label {t : Assembler} (regular : s.Regular) (run : Request.label.answer s = .ok k t) :
    autoLabelBase ≤ k.toNat := by
  have answered := s.answered .label
  rw [run] at answered
  cases answered with
  | labelled room =>
    rw [UInt16.toNat_ofNat_of_lt' room]
    exact regular.labels

namespace Given

variable {m : String} {p p' : Position} {l : SymbolId}

theorem eq_iff (regular : s.Regular) (first : s.Given requests i (.name m p) k)
    (second : s.Given requests j (.name n p') l) : k = l ↔ m = n := by
  -- both names are in the table after the later of the two requests
  have known := first.known (Nat.lt_succ_of_le (Nat.le_max_left i j))
  have known' := second.known (Nat.lt_succ_of_le (Nat.le_max_right i j))
  constructor
  · rintro rfl
    exact (regular.before requests _).numbered.unique known known'
  · rintro rfl
    rw [known] at known'
    exact Option.some.inj known'

theorem stays (given : s.Given requests i (.name n p) k) (later : i < j) (p' : Position) :
    Asm.intern n p' (s.before requests j) = .ok k (s.before requests j) := by
  unfold Asm.intern
  rw [IdentifierTable.intern_of_some (given.known later)]

theorem range (regular : s.Regular) (given : s.Given requests i (.name n p) k) :
    1 ≤ k.toNat ∧ k.toNat ≤ autoLabelBase - 1 := by
  have known := given.known (Nat.lt_succ_self i)
  have numbered := (regular.before requests (i + 1)).numbered
  exact ⟨(numbered.range known).1, Nat.le_pred_of_lt (numbered.toNat_lt known)⟩

theorem apart (regular : s.Regular) (given : s.Given requests i (.name n p) k)
    (label : s.Given requests j .label l) : k ≠ l := by
  rintro rfl
  obtain ⟨-, t, run⟩ := label
  have high := (regular.before requests j).le_label run
  have low := (given.range regular).2
  have base : 0 < autoLabelBase := by decide
  omega

end Given

/-- A name has no number exactly if it was given none. -/
theorem unknown_iff (fresh : s.identifiers = {}) :
    (s.before requests i).identifiers.ids[n]? = none ↔ ∀ j < i, ∀ p k, ¬s.Given requests j (.name n p) k := by
  rw [Option.eq_none_iff_forall_ne_some]
  constructor
  · intro unknown j lt p k given
    exact unknown k (given.known lt)
  · intro none k known
    obtain ⟨j, lt, p, given⟩ := (known_iff fresh).1 known
    exact none j lt p k given

/-- All numbers have been given. -/
theorem exhausted_iff (fresh : s.identifiers = {}) (regular : s.Regular) :
    autoLabelBase ≤ (s.before requests i).identifiers.ids.size + 1 ↔
      ∀ k : SymbolId, 1 ≤ k.toNat → k.toNat < autoLabelBase → ∃ j < i, ∃ m p, s.Given requests j (.name m p) k := by
  have now := regular.before requests i
  rw [IdentifierTable.full_iff now.numbered now.dense]
  refine forall_congr' fun k => forall₂_congr fun _ _ => ?_
  constructor
  · rintro ⟨m, known⟩
    obtain ⟨j, lt, p, given⟩ := (known_iff fresh).1 known
    exact ⟨j, lt, m, p, given⟩
  · rintro ⟨j, lt, m, p, given⟩
    exact ⟨m, given.known lt⟩

/-- Whatever is asked for, names are numbered one by one, as long as there are numbers. -/
theorem numbering_of_requests (fresh : s.identifiers = {}) (labels : autoLabelBase ≤ s.nextLabel)
    (requests : List Request) : s.Numbering requests := by
  have regular : s.Regular :=
    ⟨fresh ▸ IdentifierTable.numbered_empty, fresh ▸ IdentifierTable.dense_empty, labels⟩
  exact {
    eq_iff := fun first second => first.eq_iff regular second
    stays := fun given later p' => given.stays later p'
    range := fun given => given.range regular
    apart := fun given label => given.apart regular label
    refused_iff := intern_fails_iff.trans (and_congr (unknown_iff fresh) (exhausted_iff fresh regular))
    unchanged := eq_of_answer_error }

/-- Two spellings of a name, a label, and the first spelling again. -/
def twoSpellings : List Request :=
  [.name "LOOP" ⟨0, 1, 1⟩, .name "loop" ⟨0, 2, 1⟩, .label, .name "LOOP" ⟨0, 3, 1⟩]

theorem numbering_of_two_spellings :
    let s := new .mos6502 {} {}
    (s.Given twoSpellings 0 (.name "LOOP" ⟨0, 1, 1⟩) 1 ∧ s.Given twoSpellings 1 (.name "loop" ⟨0, 2, 1⟩) 2
      ∧ s.Given twoSpellings 2 .label 0x8000 ∧ s.Given twoSpellings 3 (.name "LOOP" ⟨0, 3, 1⟩) 1)
      ∧ s.Numbering twoSpellings :=
  ⟨⟨⟨rfl, _, rfl⟩, ⟨rfl, _, rfl⟩, ⟨rfl, _, rfl⟩, rfl, _, rfl⟩, numbering_of_requests rfl (Nat.le_refl _) twoSpellings⟩

end Assembler

end Asm65
