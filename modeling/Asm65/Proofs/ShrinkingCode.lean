import Asm65.Proofs.DraftedBlock

/-!
# Code shrinks from pass to pass

A pass without errors lays out the pieces that are planned for the rows of its text (`Underway.carriesOut`). The plan
has no address in it, so all passes lay out the same pieces (`Clean.rounds`), and what holds of pieces from pass to pass
holds of the program: neither its code gets longer nor does any of its labels move up.
-/

namespace Asm65
set_option autoImplicit false

namespace Assembler

variable {s t u : Assembler} {number : String → SymbolId} {n : Nat} {row : Row} {rows : List Row}

/-! ### One row after the other -/

/-- The rest of a pass without errors, with these rows to come. -/
structure Underway (number : String → SymbolId) (n : Nat) (rows : List Row) (s : Assembler) : Prop where
  sound : s.Sound
  tidy : s.Tidy
  clean : (statements n s).diagnostics.isEmpty = true
  numbers : (statements n s).NumbersAs number
  cpu : s.cpu = .mos6502
  code : s.current = .code
  source : ∃ tokens, s.tokens.Offers tokens ∧ Spells tokens rows ∧ tokens.length ≤ n

theorem After.list {body : Option Body} {size m : Nat} (h : After number s body rows size t) (le : size ≤ m)
    (pos : Position) (space : Space) (start : Nat) : After number s body rows m (t.listStatement pos space start) := by
  have list {ps : List Piece} (draws : Draws s ps t) : Draws s ps (t.listStatement pos space start) :=
    ⟨draws.draft, draws.cpu, draws.options, draws.current, draws.pass, draws.lastReachLog, draws.identifiers⟩
  cases h with
  | next draws planned far offers spells short =>
    exact .next (list draws) planned far offers spells (Nat.le_trans short le)
  | turn test loopEnd stack draws frame offers spells short =>
    exact .turn test loopEnd stack (list draws) frame offers spells (Nat.le_trans short le)

theorem ends_of_lineEnd? {token : Token} {flow : Flow} (line : token.lexeme.lineEnd? = some flow) :
    token.endsStatement = true := by
  unfold Token.endsStatement
  cases lexeme : token.lexeme <;> rw [lexeme] at line <;> cases line <;> rfl

/-- Neither errors nor names of the lines to come are taken back. -/
theorem of_proceed {flow : Flow} (sound : s.Sound) (reaches : Reaches s t)
    (clean : (t.proceed n flow).diagnostics.isEmpty = true) (numbers : (t.proceed n flow).NumbersAs number) :
    t.diagnostics.isEmpty = true ∧ t.NumbersAs number := by
  cases flow with
  | stop => exact ⟨clean, numbers⟩
  | goOn =>
    have grows := (reaches_statements n (sound.steps reaches.steps) reaches.tidy).steps.grows
    exact ⟨grows.isEmpty_eq_true clean, fun _ _ known => numbers (grows.identifiers known)⟩

/-- An empty line. -/
theorem Underway.blank (h : Underway number (n + 1) rows s) {tokens : List Token} {pos : Position}
    (offers : s.tokens.Offers (⟨.endOfLine, pos⟩ :: tokens)) (spells : Spells tokens rows) (room : tokens.length ≤ n) :
    ∃ t, Continues s [] t ∧ Reaches s t ∧ statements (n + 1) s = statements n t ∧ Underway number n rows t := by
  obtain ⟨flow, t, line, reaches, same⟩ := of_statements h.sound h.tidy h.clean
  cases line with
  | ends read line =>
    obtain ⟨rfl, offers, -, continues⟩ := of_nextToken offers read
    cases line
    have clean := h.clean
    have numbers := h.numbers
    rw [same] at clean numbers
    exact ⟨t, continues, reaches, same, h.sound.steps reaches.steps, reaches.tidy, clean, numbers,
      continues.cpu.trans h.cpu, continues.current.trans h.code, tokens, offers, spells, room⟩
  | statement read line =>
    obtain ⟨rfl, -⟩ := of_nextToken offers read
    cases line

/-- The end of the file. -/
theorem Underway.done (h : Underway number n [] s) : Draws s [] (statements n s) := by
  induction n generalizing s with
  | zero => exact .refl s
  | succ n ih =>
    obtain ⟨tokens, offers, spells, room⟩ := h.source
    cases spells with
    | blank pos spells =>
      obtain ⟨t, continues, -, same, underway⟩ := h.blank offers spells (Nat.le_of_succ_le_succ room)
      rw [same]
      exact continues.toDraws.trans (ih underway)
    | done pos =>
      obtain ⟨flow, t, line, -, same⟩ := of_statements h.sound h.tidy h.clean
      rw [same]
      cases line with
      | ends read line =>
        obtain ⟨rfl, -, -, continues⟩ := of_nextToken offers read
        cases line
        exact continues.toDraws
      | statement read line =>
        obtain ⟨rfl, -⟩ := of_nextToken offers read
        cases line

/-- A row, after any empty lines. -/
theorem Underway.next (h : Underway number n (row :: rows) s) :
    ∃ m u t, Continues s (labelPieces number row.labels) u ∧ After number u row.body rows m t ∧ Reaches s t
      ∧ statements n s = statements m t := by
  induction n generalizing s with
  | zero =>
    obtain ⟨tokens, -, spells, room⟩ := h.source
    cases spells <;> cases room
  | succ n ih =>
    obtain ⟨tokens, offers, spells, room⟩ := h.source
    cases spells with
    | blank pos spells =>
      obtain ⟨t, continues, reaches, same, underway⟩ := h.blank offers spells (Nat.le_of_succ_le_succ room)
      obtain ⟨m, u, v, labels, after, reaches', same'⟩ := ih underway
      exact ⟨m, u, v, continues.trans labels, after, reaches.trans reaches', same.trans same'⟩
    | @row first last tokens rest after _ _ starts reads stops spells =>
      obtain ⟨flow, t, line, reaches, same⟩ := of_statements h.sound h.tidy h.clean
      cases line with
      | ends read line =>
        obtain ⟨rfl, -⟩ := of_nextToken offers read
        cases starts.symm.trans (ends_of_lineEnd? line)
      | @statement token t v flow read line run =>
        obtain ⟨rfl, offers, -, continues⟩ := of_nextToken offers read
        have clean := h.clean
        have numbers := h.numbers
        rw [same] at clean numbers
        obtain ⟨clean, numbers⟩ := of_proceed h.sound reaches clean numbers
        have started : Continues t [] { t with start := t.here } :=
          ⟨⟨rfl, rfl, rfl, rfl, rfl, rfl, fun h => h⟩, rfl, rfl⟩
        have before := continues.trans started
        obtain ⟨_, _, got, run⟩ := exists_of_bind_eq_ok run
        cases got
        obtain ⟨rfl, u, labels, after⟩ := after_row (t := v) (before.cpu.trans h.cpu)
          (before.current.trans h.code) reads rfl rfl stops spells offers clean numbers run
        have short : rest.length + 1 ≤ n := Nat.le_of_lt_succ (Nat.lt_of_lt_of_le reads.length_lt room)
        exact ⟨n, u, _, before.trans labels, after.list (Nat.le_trans stops.length_le short) _ _ _, reaches, same⟩

theorem Underway.go {rest : List Row} {m : Nat} {ps : List Piece} {tokens : List Token} (h : Underway number n rows s)
    (reaches : Reaches s t) (same : statements n s = statements m t) (draws : Draws s ps t)
    (offers : t.tokens.Offers tokens) (spells : Spells tokens rest) (short : tokens.length ≤ m) :
    Underway number m rest t where
  sound := h.sound.steps reaches.steps
  tidy := reaches.tidy
  clean := same ▸ h.clean
  numbers := same ▸ h.numbers
  cpu := draws.cpu.trans h.cpu
  code := draws.current.trans h.code
  source := ⟨tokens, offers, spells, short⟩

/-! ### A whole pass -/

/-- Rows become the pieces that are planned for them. -/
structure CarriesOut (number : String → SymbolId) (rows : List Row) (s : Assembler) (ps : List Piece) (t : Assembler) :
    Prop where
  planned : plan number s.options s.frame rows = some ps
  draws : Draws s ps t
  confined : Confined s.frame ps

section Rows

variable {ps qs : List Piece} {labels : List String}

/-- One more row in front: its labels, and what is planned for its body. -/
theorem CarriesOut.cons (nested : BlockStack.Nested s.blocks s.nextLabel s.symbols)
    (low : ∀ name, (number name).toNat < autoLabelBase) (alone : ¬ TurnsBack row rows)
    (continues : Continues s (labelPieces number row.labels) u)
    (planned : Row.plan number u.options u.frame ⟨[], row.body⟩ = some (ps, t.frame)) (draws : Draws u ps t)
    {v : Assembler} (rest : CarriesOut number rows t qs v) :
    CarriesOut number (row :: rows) s (labelPieces number row.labels ++ (ps ++ qs)) v := by
  rw [continues.frame, continues.options] at planned
  have after := rest.planned
  rw [draws.options, continues.options] at after
  refine ⟨?_, continues.toDraws.trans (draws.trans rest.draws), ?_⟩
  · have planned : row.plan number s.options s.frame = some (ps, t.frame) := planned
    rw [plan_cons alone, planned]
    show (plan number s.options t.frame rows).map _ = _
    rw [after]
    rfl
  · have labels : Advances s.frame (labelPieces number row.labels) s.frame := advances_labels nested low row.labels
    have body : Advances s.frame ps t.frame := by
      cases body : row.body with
      | some body' =>
        rw [body] at planned
        exact advances_plan nested low planned
      | none =>
        rw [body] at planned
        obtain ⟨rfl, same⟩ := Prod.mk.inj (Option.some.inj planned)
        rw [← same]
        exact advances_labels nested low []
    exact .prepend labels (.prepend body rest.confined)

/-- A test with the end of its loop right after it: both rows are one piece. -/
theorem CarriesOut.turn (nested : BlockStack.Nested s.blocks s.nextLabel s.symbols)
    (low : ∀ name, (number name).toNat < autoLabelBase) {pos opened : Position} {beginId repeatId endId : SymbolId}
    {outer : BlockStack} (continues : Continues s (labelPieces number labels) u)
    (stack : u.blocks = (.loop beginId repeatId endId false, opened) :: outer)
    (draws : Draws u [.turn pos repeatId beginId endId] t) (frame : t.frame = ⟨outer, u.nextLabel⟩) {v : Assembler}
    (rest : CarriesOut number rows t qs v) :
    CarriesOut number (⟨labels, some (.whileTest pos)⟩ :: ⟨[], some .loopEnd⟩ :: rows) s
      (labelPieces number labels ++ .turn pos repeatId beginId endId :: qs) v := by
  rw [continues.blocks] at stack
  rw [continues.nextLabel] at frame
  have after := rest.planned
  rw [draws.options, continues.options, frame] at after
  refine ⟨?_, continues.toDraws.trans (draws.trans rest.draws), ?_⟩
  · rw [Assembler.frame, plan_turn stack, after]
    rfl
  · have labels : Advances s.frame (labelPieces number labels) s.frame := advances_labels nested low labels
    have confined := rest.confined
    rw [frame] at confined
    rw [stack] at nested
    refine .prepend labels ?_
    rw [Assembler.frame, stack]
    exact .turn nested confined

end Rows

/-- A test and the end of its loop right after it, in two rows, are what is planned for them as one. -/
theorem draws_turn_far {pos : Position} {beginId repeatId endId : SymbolId} {v : Assembler}
    (far : s.draft.turnsAt repeatId = false) (test : Draws s [.branch pos endId 5, .label beginId] t)
    (between : Continues t [] u) (ends : Draws u [.fixed 3, .label endId] v) :
    Draws s [.turn pos repeatId beginId endId] v := by
  have draws := (test.trans between.toDraws).trans ends
  refine ⟨?_, draws.cpu, draws.options, draws.current, draws.pass, draws.lastReachLog, draws.identifiers⟩
  rw [← draws.draft]
  exact (congrArg (·.bind some) (Piece.lay_turn_far far).symm).trans (Option.bind_fun_some _)

/-- A pass without errors lays out what is planned for its rows. -/
theorem Underway.carriesOut (low : ∀ name, (number name).toNat < autoLabelBase) {n : Nat} {rows : List Row}
    {s : Assembler} (h : Underway number n rows s) : ∃ ps, CarriesOut number rows s ps (statements n s) := by
  match rows with
  | [] => exact ⟨[], rfl, h.done, ⟨⟨by simp, by simp, by simp⟩, by simp, by simp⟩⟩
  | ⟨names, body⟩ :: rows =>
    obtain ⟨m, u, t, labels, after, reaches, same⟩ := h.next
    rw [same]
    -- A loop that turns at its test takes two rows at once. If it does not, the plan for the two rows is the same.
    cases after with
    | @turn pos opened beginId repeatId endId outer more tokens test loopEnd stack draws frame offers spells short =>
      cases test
      subst loopEnd
      obtain ⟨ps, rest⟩ := carriesOut low (h.go reaches same (labels.toDraws.trans draws) offers spells short)
      exact ⟨_, .turn h.sound.nested low labels stack draws frame rest⟩
    | @next ps tokens draws planned far offers spells short =>
      have underway := h.go reaches same (labels.toDraws.trans draws) offers spells short
      by_cases back : TurnsBack ⟨names, body⟩ rows
      · obtain ⟨pos, more, test, rfl⟩ := back
        cases test
        have planned : Body.plan number u.options u.frame (.whileTest pos) = some (ps, t.frame) := planned
        obtain ⟨beginId, repeatId, endId, opened, outer, stack, rfl, after⟩ := of_plan_whileTest planned
        obtain ⟨m', u', t', labels', after', reaches', same'⟩ := underway.next
        rw [same']
        cases after' with
        | turn test => cases test
        | @next ps' tokens' draws' planned' far' offers' spells' short' =>
          have underway' := underway.go reaches' same' (labels'.toDraws.trans draws') offers' spells' short'
          obtain ⟨ps, rest⟩ := carriesOut low underway'
          rw [labels'.frame, after] at planned'
          obtain ⟨rfl, frame⟩ := Prod.mk.inj (Option.some.inj planned')
          have turn := draws_turn_far (far rfl rfl stack) draws labels' draws'
          exact ⟨_, .turn h.sound.nested low labels stack turn frame.symm rest⟩
      · obtain ⟨qs, rest⟩ := carriesOut low underway
        exact ⟨_, .cons h.sound.nested low back labels planned draws rest⟩
termination_by rows.length

/-! ### Pass after pass -/

section Passes

variable {root : Nat} {text : String}

/-- A pass may have more lines than its file has characters. -/
theorem le_lineBudget (source : s.files.text? root = some text) : text.utf8ByteSize + 1 ≤ s.lineBudget := by
  have inTable := SourceTable.utf8ByteSize_le source
  unfold lineBudget
  dsimp only
  refine Nat.le_trans ?_ (Nat.le_self_pow (Nat.succ_ne_zero _) _)
  omega

/-- A pass without errors over a file that spells rows carries out the pieces planned for them. -/
theorem carriesOut_onePass (sound : s.Sound) (low : ∀ name, (number name).toNat < autoLabelBase)
    (cpu : s.cpu = .mos6502) (source : s.files.text? root = some text) (spelled : SpelledBy root text rows)
    (clean : (s.onePass root).diagnostics.isEmpty = true) (numbers : (s.onePass root).NumbersAs number) :
    ∃ ps, CarriesOut number rows (s.begun root) ps (s.onePass root) := by
  have same := onePass_eq_laidOut sound clean
  rw [same] at clean numbers ⊢
  obtain ⟨tokens, offers, spells, short⟩ := spelled.offers
  have begun : (s.begun root).tokens = { top := .ofText root text } := by
    show TokenStream.ofFile s.files root = _
    rw [TokenStream.ofFile, source]
    rfl
  have room : tokens.length ≤ (s.begun root).lineBudget :=
    Nat.le_trans short (le_lineBudget (s := s.begun root) source)
  rw [← begun] at offers
  have underway : Underway number (s.begun root).lineBudget rows (s.begun root) :=
    ⟨sound.begun root, tidy_begun s root, clean, numbers, cpu, rfl, tokens, offers, spells, room⟩
  exact underway.carriesOut low

theorem identifiers_afterPasses (sound : s.Sound) (root : Nat) {m n : Nat} (le : m ≤ n) {name : String} {id : SymbolId}
    (known : (afterPasses root s m).identifiers.ids[name]? = some id) :
    (afterPasses root s n).identifiers.ids[name]? = some id := by
  induction le with
  | refl => exact known
  | @step n le ih => exact (steps_onePass (sound.afterPasses root n) root).grows.identifiers ih

/-- The numbers that names have in the end. -/
def finalNumber (s : Assembler) (name : String) : SymbolId := (s.identifiers.ids[name]?).getD 0

theorem finalNumber_lt (sound : s.Sound) (name : String) : (s.finalNumber name).toNat < autoLabelBase := by
  unfold finalNumber
  cases known : s.identifiers.ids[name]? with
  | none => decide
  | some id => exact sound.numbered.toNat_lt known

/-- A run without errors over a text that spells rows, up to pass `n`. -/
structure Clean (root : Nat) (text : String) (rows : List Row) (s : Assembler) (n : Nat) : Prop where
  sound : s.Sound
  cpu : s.cpu = .mos6502
  source : s.files.text? root = some text
  spelled : SpelledBy root text rows
  clean : (afterPasses root s n).diagnostics.isEmpty = true

namespace Clean

variable (h : Clean root text rows s n)

include h

theorem carriesOut {k : Nat} (within : k < n) (cpu : (afterPasses root s k).cpu = .mos6502) :
    ∃ ps, CarriesOut (afterPasses root s n).finalNumber rows ((afterPasses root s k).begun root) ps
      (afterPasses root s (k + 1)) := by
  have sound := h.sound.afterPasses root k
  have source := (afterPasses_mono h.sound root (Nat.zero_le k)).1.text? h.source
  have clean := (afterPasses_mono h.sound root (Nat.succ_le_of_lt within)).2 h.clean
  have numbers : (afterPasses root s (k + 1)).NumbersAs (afterPasses root s n).finalNumber := by
    intro name id known
    rw [finalNumber, identifiers_afterPasses h.sound root (Nat.succ_le_of_lt within) known]
    rfl
  exact carriesOut_onePass sound (finalNumber_lt (h.sound.afterPasses root n)) cpu source h.spelled clean numbers

theorem same {k : Nat} (within : k ≤ n) :
    (afterPasses root s k).cpu = .mos6502 ∧ (afterPasses root s k).options = s.options := by
  induction k with
  | zero => exact ⟨h.cpu, rfl⟩
  | succ k ih =>
    obtain ⟨cpu, options⟩ := ih (Nat.le_of_succ_le within)
    obtain ⟨ps, carries⟩ := h.carriesOut within cpu
    exact ⟨carries.draws.cpu.trans cpu, carries.draws.options.trans options⟩

/-- All passes lay out the same pieces. -/
theorem rounds (some : 0 < n) (start : ∀ id, s.symbols.get? id = none) (first : s.pass = 0)
    (small : ((afterPasses root s 1).segment .code).size < 0x10000) :
    ∃ ps, Rounds ps (fun k => (afterPasses root s k).draft) n := by
  obtain ⟨ps, carries⟩ := h.carriesOut some h.cpu
  rw [← size_draft] at small
  refine ⟨ps, carries.confined.toSeparate, fun id => ?_, small, fun k within => ?_⟩
  · show (s.symbols.get? id).map _ = none
    rw [start]
    rfl
  · obtain ⟨cpu, options⟩ := h.same (Nat.le_of_lt within)
    obtain ⟨qs, carries'⟩ := h.carriesOut within cpu
    have planned : plan _ s.options ⟨[], autoLabelBase⟩ rows = _ := carries.planned
    have planned' : plan _ (afterPasses root s k).options ⟨[], autoLabelBase⟩ rows = _ := carries'.planned
    rw [options, planned] at planned'
    cases planned'
    have draft := carries'.draws.draft
    have pass : ((afterPasses root s k).begun root).pass = k + 1 := by
      show (afterPasses root s k).pass + 1 = k + 1
      rw [pass_afterPasses h.sound, first, Nat.zero_add]
    rw [pass] at draft
    exact draft

end Clean

/-- The address of a label that the last pass has placed. -/
def placed? (s : Assembler) (id : SymbolId) : Option Address :=
  ((s.symbols.get? id).filter (·.pass = s.pass)).map (·.address)

theorem table_of_placed? {id : SymbolId} {a : Address} (h : s.placed? id = some a) :
    s.draft.table id = some (a, s.pass) := by
  obtain ⟨sym, found, rfl⟩ := Option.map_eq_some_iff.1 h
  obtain ⟨found, same⟩ := Option.filter_eq_some_iff.1 found
  rw [decide_eq_true_eq] at same
  show (s.symbols.get? id).map _ = _
  rw [found, ← same]
  rfl

/-- Code only shrinks from pass to pass. -/
theorem code_shrinks {rows : List Row} (new : s.IsNew) (cpu : s.cpu = .mos6502)
    (source : s.files.text? root = some text) (spelled : SpelledBy root text rows)
    (small : ((afterPasses root s.prepared 1).segment .code).size < 0x10000)
    (clean : (afterPasses root s.prepared (n + 2)).diagnostics.isEmpty = true) :
    ((afterPasses root s.prepared (n + 2)).segment .code).size
        ≤ ((afterPasses root s.prepared (n + 1)).segment .code).size
      ∧ ∀ id a b, (afterPasses root s.prepared (n + 1)).placed? id = some a →
        (afterPasses root s.prepared (n + 2)).placed? id = some b →
        ∃ x y, a = .inSpace .code x ∧ b = .inSpace .code y ∧ y ≤ x := by
  have sound := new.prepared.1
  have start (id : SymbolId) : s.prepared.symbols.get? id = none := by
    rw [new]
    rfl
  have run : Clean root text rows s.prepared (n + 2) := ⟨sound, cpu, source, spelled, clean⟩
  obtain ⟨ps, rounds⟩ := run.rounds (Nat.succ_pos _) start rfl small
  have pass (k : Nat) : (afterPasses root s.prepared k).pass = k := by
    rw [pass_afterPasses sound]
    exact Nat.zero_add k
  refine ⟨?_, fun id a b old new => ?_⟩
  · rw [← size_draft, ← size_draft]
    exact rounds.size_le
  · have old := table_of_placed? old
    have new := table_of_placed? new
    rw [pass] at old new
    obtain ⟨x, y, rfl, rfl, le, small⟩ := rounds.label_le old new
    refine ⟨_, _, rfl, rfl, ?_⟩
    rw [UInt16.le_iff_toNat_le, UInt16.toNat_ofNat_of_lt' small,
      UInt16.toNat_ofNat_of_lt' (Nat.lt_of_le_of_lt le small)]
    exact le

end Passes

/-! ### A loop that closes up -/

/-- The end of the loop comes within reach of its top in the second pass. -/
def loopText : String := "IF EQ\nDO\nDS 122\nBNE out\nWHILE NE\nWEND\nENDIF\nout: NOP"

def loopRows : List Row :=
  [⟨[], some (.ifBlock ⟨0, 1, 1⟩)⟩, ⟨[], some (.doBlock ⟨0, 2, 1⟩)⟩, ⟨[], some (.bytes 122)⟩,
    ⟨[], some (.branch ⟨0, 4, 1⟩ 0xD0 "out")⟩, ⟨[], some (.whileTest ⟨0, 5, 1⟩)⟩, ⟨[], some .loopEnd⟩,
    ⟨[], some .endIf⟩, ⟨["out"], some (.bytes 1)⟩]

def loopTokens : List Token :=
  [⟨.keyword .ifBlock, ⟨0, 1, 1⟩⟩, ⟨.identifier "EQ", ⟨0, 1, 4⟩⟩, ⟨.endOfLine, ⟨0, 1, 6⟩⟩,
    ⟨.keyword .doBlock, ⟨0, 2, 1⟩⟩, ⟨.endOfLine, ⟨0, 2, 3⟩⟩,
    ⟨.keyword .reserve, ⟨0, 3, 1⟩⟩, ⟨.number 122, ⟨0, 3, 4⟩⟩, ⟨.endOfLine, ⟨0, 3, 7⟩⟩,
    ⟨.identifier "BNE", ⟨0, 4, 1⟩⟩, ⟨.identifier "out", ⟨0, 4, 5⟩⟩, ⟨.endOfLine, ⟨0, 4, 8⟩⟩,
    ⟨.keyword .whileTest, ⟨0, 5, 1⟩⟩, ⟨.identifier "NE", ⟨0, 5, 7⟩⟩, ⟨.endOfLine, ⟨0, 5, 9⟩⟩,
    ⟨.keyword .loopEnd, ⟨0, 6, 1⟩⟩, ⟨.endOfLine, ⟨0, 6, 5⟩⟩,
    ⟨.keyword .endIf, ⟨0, 7, 1⟩⟩, ⟨.endOfLine, ⟨0, 7, 6⟩⟩,
    ⟨.identifier "out", ⟨0, 8, 1⟩⟩, ⟨.punct .colon, ⟨0, 8, 4⟩⟩, ⟨.identifier "NOP", ⟨0, 8, 6⟩⟩,
    ⟨.endOfFile, ⟨0, 8, 9⟩⟩]

theorem spelledBy_loopText : SpelledBy 0 loopText loopRows := by
  refine ⟨loopTokens, by decide +kernel, ?_⟩
  refine .row rfl (.body (.ifBlock ..)) (.line ..) ?_
  refine .row rfl (.body (.doBlock ..)) (.line ..) ?_
  refine .row rfl (.body (.reserve ..)) (.line ..) ?_
  refine .row rfl (.body (.branch rfl ..)) (.line ..) ?_
  refine .row rfl (.body (.whileTest ..)) (.line ..) ?_
  refine .row rfl (.body (.loopEnd ..)) (.line ..) ?_
  refine .row rfl (.body (.endIf ..)) (.line ..) ?_
  exact .row rfl (.label _ _ _ rfl (.body (.implied ..))) (.file ..) (.done _)

theorem code_shrinks_loop :
    (afterPasses 0 (ofText loopText).prepared 1).placed? 1 = some (.inSpace .code 140)
      ∧ (afterPasses 0 (ofText loopText).prepared 2).placed? 1 = some (.inSpace .code 131)
      ∧ ((afterPasses 0 (ofText loopText).prepared 2).segment .code).size
        ≤ ((afterPasses 0 (ofText loopText).prepared 1).segment .code).size
      ∧ ∃ x y, Address.inSpace .code 140 = .inSpace .code x ∧ Address.inSpace .code 131 = .inSpace .code y ∧ y ≤ x := by
  have run : ((afterPasses 0 (ofText loopText).prepared 1).placed? 1 = some (.inSpace .code 140)
      ∧ ((afterPasses 0 (ofText loopText).prepared 1).segment .code).size < 0x10000)
      ∧ (afterPasses 0 (ofText loopText).prepared 2).placed? 1 = some (.inSpace .code 131)
      ∧ (afterPasses 0 (ofText loopText).prepared 2).diagnostics.isEmpty = true := by decide +kernel
  obtain ⟨⟨old, small⟩, new, clean⟩ := run
  have source : (ofText loopText).files.text? 0 = some loopText := by decide +kernel
  have shrinks := code_shrinks (n := 0) (isNew_ofText loopText) rfl source spelledBy_loopText small clean
  exact ⟨old, new, shrinks.1, shrinks.2 1 _ _ old new⟩

end Assembler

end Asm65
