import Asm65.Library.Codec
import Asm65.Proofs.ObjectCodec

/-!
# Libraries and their files

Modules make a library if no two of their public definitions share a name, and then the index has every such name
once, with the number of its module. In a file the modules stand one after another without their lengths: each is
read up to its own last byte, so the next one starts where its own bytes do.
-/

namespace Asm65
set_option autoImplicit false
open Binary

namespace Object

/-- A module as it comes back from a file, so that nothing of it is lost when it is written to one. -/
structure Portable (o : Object) : Prop extends Storable o where
  exported {id : SymbolId} {s : Symbol} (h : o.symbols[id]? = some s) : s.isExported = true
  pass {id : SymbolId} {s : Symbol} (h : o.symbols[id]? = some s) : s.pass = 0
  visible {id : SymbolId} {s : Symbol} (h : o.symbols[id]? = some s) : s.isPublic = !s.address.isExternal

namespace Portable

variable {o : Object} (portable : o.Portable)

include portable

theorem stored_eq : o.stored = o := by
  have symbols : o.stored.symbols = o.symbols := by
    refine Std.ExtTreeMap.ext_getElem? fun {id} => ?_
    rw [stored, portable.getElem?_stored]
    cases found : o.symbols[id]? with
    | none => rfl
    | some s =>
      rw [Option.filter_some_pos (portable.exported found), Option.map_some, Symbol.stored, ← portable.visible found,
        ← portable.pass found]
  show { o with symbols := o.stored.symbols } = o
  rw [symbols]

theorem utf8ByteSize_le {s : Symbol} (mem : s ∈ o.publics) : s.name.utf8ByteSize ≤ 65535 := by
  obtain ⟨id, found⟩ := (OrderedMap.mem_values _).1 (List.mem_filter.1 mem).1
  exact portable.names found (portable.exported found)

end Portable

/-- Whether a module is as it comes back from a file. -/
def isPortable (o : Object) : Bool :=
  (o.symbols.toList.all fun e =>
    e.2.id == e.1 && decide (e.2.name.utf8ByteSize ≤ 65535) && (!e.2.address.isConst || e.2.address.part == .word)
      && e.2.isExported && e.2.pass == 0 && e.2.isPublic == !e.2.address.isExternal)
    && o.uses.toList.all fun u =>
      u.1.isRelocatable && (!u.2.isConst || u.2.part == .word)
        && (!u.2.isExternal || (o.symbols.toList.any fun e => u.2.origin == .external e.1))

/-- What the test of portability checks is enough for a module to come back from a file. -/
theorem portable_of_isPortable {o : Object} (h : o.isPortable = true) : o.Portable := by
  simp only [isPortable, Bool.and_eq_true, List.all_eq_true, Bool.or_eq_true, List.any_eq_true, Bool.not_eq_true',
    beq_iff_eq, decide_eq_true_eq] at h
  obtain ⟨symbols, uses⟩ := h
  have symbol {id : SymbolId} {s : Symbol} (found : o.symbols[id]? = some s) :=
    symbols (id, s) (Std.ExtTreeMap.mem_toList_iff_getElem?_eq_some.2 found)
  have use {site value : Address} (found : o.uses[site]? = some value) :=
    uses (site, value) (Std.ExtTreeMap.mem_toList_iff_getElem?_eq_some.2 found)
  have whole {a : Address} (h : a.isConst = false ∨ a.part = .word) : a.Whole := by
    intro constant
    exact h.resolve_left (by simp [constant])
  refine ⟨⟨fun h => ?_, fun h _ => ?_, fun h _ => ?_, fun h => ?_, fun h => ?_, fun {site value id} h origin => ?_⟩,
    fun h => ?_, fun h => ?_, fun h => ?_⟩
  · exact (symbol h).1.1.1.1.1
  · exact (symbol h).1.1.1.1.2
  · exact whole (symbol h).1.1.1.2
  · exact (use h).1.1
  · exact whole (use h).1.2
  · obtain external | ⟨⟨id', s⟩, mem, same⟩ := (use h).2
    · rw [Address.isExternal, origin] at external
      cases external
    · rw [origin] at same
      cases same
      have found := Std.ExtTreeMap.mem_toList_iff_getElem?_eq_some.1 mem
      exact ⟨s, found, (symbol found).1.1.2⟩
  · exact (symbol h).1.1.2
  · exact (symbol h).1.2
  · exact (symbol h).2

/-- The bytes of a module in a file. -/
def bytes (o : Object) : List UInt8 := o.encode.toOption.getD []

theorem encode_eq_bytes {o : Object} {bs : List UInt8} (h : o.encode = .ok bs) : o.bytes = bs := by
  rw [bytes, h]
  rfl

end Object

namespace Library

/-! ### The index -/

/-- What the modules from number `i` on add to the index, in order. -/
def entries (i : Nat) (os : List Object) : List (String × UInt16) :=
  (os.zipIdx i).flatMap fun e => e.1.publics.map fun s => (s.name, UInt16.ofNat e.2)

theorem entries_cons (i : Nat) (o : Object) (os : List Object) :
    entries i (o :: os) = o.publics.map (fun s => (s.name, UInt16.ofNat i)) ++ entries (i + 1) os := rfl

theorem map_fst_entries (i : Nat) (os : List Object) :
    (entries i os).map (·.1) = (os.flatMap Object.publics).map (·.name) := by
  induction os generalizing i with
  | nil => rfl
  | cons o rest ih => rw [entries_cons, List.flatMap_cons, List.map_append, List.map_append, ih, List.map_map]; rfl

theorem mem_entries {os : List Object} (few : os.length < 0x10000) {name : String} {i : UInt16} :
    (name, i) ∈ entries 0 os ↔ ∃ o, os[i.toNat]? = some o ∧ ∃ s ∈ o.publics, s.name = name := by
  simp only [entries, List.mem_flatMap, List.mem_map, Prod.exists, List.mk_mem_zipIdx_iff_getElem?, Prod.mk.injEq]
  constructor
  · rintro ⟨o, k, found, s, mem, rfl, rfl⟩
    have bound : k < 0x10000 := Nat.lt_trans (List.getElem?_eq_some_iff.1 found).1 few
    rw [UInt16.toNat_ofNat_of_lt' bound]
    exact ⟨o, found, s, mem, rfl⟩
  · rintro ⟨o, found, s, mem, rfl⟩
    exact ⟨o, i.toNat, found, s, mem, rfl, UInt16.ofNat_toNat⟩

section

variable {names : List String} {index index' : Std.ExtTreeMap String UInt16 compare} {i : Nat}

/-- A name is refused if the index has it. -/
theorem indexModule_eq_ok_iff {symbols : List Symbol} :
    indexModule names index i symbols = .ok index' ↔
      (symbols.map (·.name)).Nodup ∧ (∀ s ∈ symbols, index[s.name]? = none)
        ∧ index' = (symbols.map fun s => (s.name, UInt16.ofNat i)).foldl (fun m e => m.insert e.1 e.2) index := by
  induction symbols generalizing index with
  | nil => simp [indexModule, eq_comm]
  | cons s rest ih =>
    unfold indexModule
    cases known : index[s.name]? with
    | some first =>
      refine iff_of_false (fun h => by cases h) ?_
      rintro ⟨-, fresh, -⟩
      cases known.symm.trans (fresh s (List.mem_cons_self ..))
    | none =>
      rw [ih, List.map_cons, List.map_cons, List.nodup_cons, List.foldl_cons, List.forall_mem_cons]
      -- of the names that follow, none is in the index once this one is added
      have fresh : (∀ t ∈ rest, (index.insert s.name (UInt16.ofNat i))[t.name]? = none) ↔
          s.name ∉ rest.map (·.name) ∧ ∀ t ∈ rest, index[t.name]? = none := by
        simp only [Std.ExtTreeMap.getElem?_insert, List.mem_map, not_exists, not_and]
        constructor
        · intro all
          refine ⟨fun t mem same => ?_, fun t mem => ?_⟩
          · simpa [same] using all t mem
          · have := all t mem
            split at this
            · cases this
            · exact this
        · rintro ⟨different, all⟩ t mem
          rw [if_neg fun same => different t mem (Std.LawfulEqOrd.eq_of_compare same).symm]
          exact all t mem
      rw [fresh]
      constructor
      · rintro ⟨nodup, ⟨new, others⟩, same⟩
        exact ⟨⟨new, nodup⟩, ⟨known, others⟩, same⟩
      · rintro ⟨⟨new, nodup⟩, ⟨-, others⟩, same⟩
        exact ⟨nodup, ⟨new, others⟩, same⟩

theorem getElem?_foldl_insert_eq_none {entries : List (String × UInt16)} {name : String} :
    (entries.foldl (fun m e => m.insert e.1 e.2) index)[name]? = none ↔
      name ∉ entries.map (·.1) ∧ index[name]? = none := by
  induction entries generalizing index with
  | nil => simp
  | cons e rest ih =>
    rw [List.foldl_cons, ih, Std.ExtTreeMap.getElem?_insert, List.map_cons, List.mem_cons, not_or]
    by_cases same : name = e.1
    · simp [same]
    · rw [if_neg fun h => same (Std.LawfulEqOrd.eq_of_compare h).symm]
      simp [same]

/-- Modules can be indexed if and only if no two public symbols have the same name, in them or in the index so far.
The index then has all their names. -/
theorem indexFrom_eq_ok_iff {os : List Object} :
    indexFrom names index i os = .ok index' ↔
      ((os.flatMap Object.publics).map (·.name)).Nodup ∧ (∀ s ∈ os.flatMap Object.publics, index[s.name]? = none)
        ∧ index' = (entries i os).foldl (fun m e => m.insert e.1 e.2) index := by
  induction os generalizing index i with
  | nil => simp [indexFrom, entries, eq_comm]
  | cons o rest ih =>
    rw [List.flatMap_cons, List.map_append, List.nodup_append, List.forall_mem_append, entries_cons, List.foldl_append]
    unfold indexFrom
    cases first : indexModule names index i o.publics with
    | error cause =>
      refine iff_of_false (fun h => by cases h) ?_
      rintro ⟨⟨nodup, -⟩, ⟨fresh, -⟩, -⟩
      cases first.symm.trans (indexModule_eq_ok_iff.2 ⟨nodup, fresh, rfl⟩)
    | ok extended =>
      obtain ⟨nodup, fresh, rfl⟩ := indexModule_eq_ok_iff.1 first
      dsimp only
      rw [ih]
      simp only [getElem?_foldl_insert_eq_none, List.map_map]
      constructor
      · rintro ⟨others, new, same⟩
        refine ⟨⟨nodup, others, ?_⟩, ⟨fresh, fun s mem => (new s mem).2⟩, same⟩
        rintro name here other mem rfl
        obtain ⟨s, later, rfl⟩ := List.mem_map.1 mem
        exact (new s later).1 here
      · rintro ⟨⟨-, others, apart⟩, ⟨-, new⟩, same⟩
        exact ⟨others, fun s mem => ⟨fun here => apart _ here _ (List.mem_map_of_mem mem) rfl, new s mem⟩, same⟩

end

section

variable {objects : Array Object} {names : List String} {l : Library}

/-- Which modules make a library, and which library they make. -/
theorem ofObjects_eq_ok_iff : ofObjects objects names = .ok l ↔
    objects.size < 0x10000 ∧ ((objects.toList.flatMap Object.publics).map (·.name)).Nodup
      ∧ l = { objects, index := (entries 0 objects.toList).foldl (fun m e => m.insert e.1 e.2) ∅ } := by
  unfold ofObjects
  split
  · rename_i few
    cases indexed : indexFrom names ∅ 0 objects.toList with
    | error cause =>
      refine iff_of_false (fun h => by cases h) ?_
      rintro ⟨-, nodup, -⟩
      cases indexed.symm.trans (indexFrom_eq_ok_iff.2 ⟨nodup, fun _ _ => Std.ExtTreeMap.getElem?_empty, rfl⟩)
    | ok index =>
      obtain ⟨nodup, -, rfl⟩ := indexFrom_eq_ok_iff.1 indexed
      refine ⟨fun h => ⟨few, nodup, (Except.ok.inj h).symm⟩, ?_⟩
      rintro ⟨-, -, rfl⟩
      rfl
  · rename_i many
    exact iff_of_false (fun h => by cases h) fun h => many h.1

/-- The index is exact: a name is there if its module defines it for others. -/
theorem getElem?_index (made : ofObjects objects names = .ok l) {name : String} {i : UInt16} :
    l.index[name]? = some i ↔ ∃ o, objects[i.toNat]? = some o ∧ ∃ s ∈ o.publics, s.name = name := by
  obtain ⟨few, nodup, rfl⟩ := ofObjects_eq_ok_iff.1 made
  have distinct : (entries 0 objects.toList).Pairwise fun a b => a.1 ≠ b.1 := by
    rw [← map_fst_entries 0] at nodup
    exact List.pairwise_map.1 nodup
  rw [OrderedMap.getElem?_foldl_insert distinct, mem_entries few, Array.getElem?_toList]

end

/-! ### The file -/

theorem reads_decodeEntry {modules : Nat} {entry : String × UInt16} (short : entry.1.utf8ByteSize ≤ 65535)
    (known : entry.2.toNat < modules) : Reads (decodeEntry modules) (encodeEntry entry) entry := by
  refine (Reads.string short).bind ((Reads.word entry.2).bind_nil ?_)
  rw [if_pos known]
  exact .pure _

theorem of_mapM_encode {os : List Object} {bss : List (List UInt8)} (h : os.mapM Object.encode = .ok bss) :
    bss = os.map Object.bytes ∧ ∀ o ∈ os, o.encode = .ok o.bytes := by
  induction os generalizing bss with
  | nil =>
    cases h
    exact ⟨rfl, fun _ none => (List.not_mem_nil none).elim⟩
  | cons o rest ih =>
    rw [List.mapM_cons] at h
    obtain ⟨bs, first, h⟩ := exists_of_bind h
    obtain ⟨others, later, h⟩ := exists_of_bind h
    cases h
    obtain ⟨rfl, all⟩ := ih later
    have own := Object.encode_eq_bytes first
    exact ⟨by rw [List.map_cons, own], List.forall_mem_cons.2 ⟨by rw [own, first], all⟩⟩

theorem exists_of_encode {l : Library} {bytes : List UInt8} (h : l.encode = .ok bytes) :
    l.objects.size < 0x10000 ∧ l.index.size < 0x10000 ∧ (∀ o ∈ l.objects.toList, o.encode = .ok o.bytes)
      ∧ bytes = word version ++ (word (.ofNat l.objects.size) ++ (l.objects.toList.flatMap Object.bytes
          ++ (word (.ofNat l.index.size) ++ l.index.toList.flatMap encodeEntry))) := by
  obtain ⟨modules, hmodules, h⟩ := exists_of_bind h
  obtain ⟨objects, hobjects, h⟩ := exists_of_bind h
  obtain ⟨names, hnames, h⟩ := exists_of_bind h
  obtain ⟨fewModules, rfl⟩ := Object.of_count hmodules
  obtain ⟨fewNames, rfl⟩ := Object.of_count hnames
  obtain ⟨rfl, all⟩ := of_mapM_encode hobjects
  cases h
  exact ⟨fewModules, fewNames, all, by simp only [List.append_assoc, List.flatMap_def]⟩

/-- A library of portable modules comes back from its file as it was: the modules one by one, and the index name by
name. -/
theorem reads_decode {l : Library} (portable : ∀ o ∈ l.objects, o.Portable)
    (short : ∀ {name : String} {i : UInt16}, l.index[name]? = some i →
      name.utf8ByteSize ≤ 65535 ∧ i.toNat < l.objects.size)
    {bytes : List UInt8} (written : l.encode = .ok bytes) : Reads decode bytes l := by
  obtain ⟨fewModules, fewNames, encoded, rfl⟩ := exists_of_encode written
  have objects : Reads (repeated Object.decode l.objects.toList.length #[]) (l.objects.toList.flatMap Object.bytes)
      (#[] ++ (l.objects.toList.map id).toArray) := .repeated #[] fun o mem => by
    have own := portable o (Array.mem_toList_iff.1 mem)
    have read := Object.reads_decode own.toStorable (encoded o mem)
    rwa [own.stored_eq] at read
  have index : Reads (repeated (decodeEntry l.objects.size) l.index.toList.length #[])
      (l.index.toList.flatMap encodeEntry) (#[] ++ (l.index.toList.map id).toArray) := .repeated #[] fun e mem => by
    have ⟨fits, placed⟩ := short (Std.ExtTreeMap.mem_toList_iff_getElem?_eq_some.1 mem)
    exact reads_decodeEntry fits placed
  rw [Array.empty_append, List.map_id] at objects index
  refine (Reads.word version).bind ?_
  refine Object.reads_count fewModules fun n same => ?_
  rw [same, ← Array.length_toList]
  refine objects.bind ?_
  refine Object.reads_count fewNames fun n same => ?_
  rw [same, ← Std.ExtTreeMap.length_toList]
  refine index.bind_nil ?_
  rw [List.foldl_toArray, OrderedMap.foldl_insert_toList]
  exact .pure _

/-- Libraries are exact and so are their files. Modules make a library if there are not too many of them and no name
is defined twice for others; the index then has a name with the number of the module that defines it; and a file gives
back the library that was written to it. -/
theorem library_faithful {objects : Array Object} (portable : ∀ o ∈ objects, o.Portable) (names : List String) :
    ((∃ l, ofObjects objects names = .ok l) ↔
      objects.size ≤ 65535 ∧ ((objects.toList.flatMap Object.publics).map (·.name)).Nodup)
    ∧ ∀ l, ofObjects objects names = .ok l → l.objects = objects
      ∧ (∀ (name : String) (i : UInt16), l.index[name]? = some i ↔
          ∃ o, objects[i.toNat]? = some o ∧ ∃ s ∈ o.publics, s.name = name)
      ∧ ∀ bytes, l.encode = .ok bytes → ofBytes bytes = .ok l := by
  constructor
  · constructor
    · rintro ⟨l, made⟩
      obtain ⟨few, nodup, -⟩ := ofObjects_eq_ok_iff.1 made
      exact ⟨Nat.le_of_lt_succ few, nodup⟩
    · rintro ⟨few, nodup⟩
      exact ⟨_, ofObjects_eq_ok_iff.2 ⟨Nat.lt_succ_of_le few, nodup, rfl⟩⟩
  · intro l made
    have same : l.objects = objects := by rw [(ofObjects_eq_ok_iff.1 made).2.2]
    refine ⟨same, fun name i => getElem?_index made, fun bytes written => ?_⟩
    refine (reads_decode (same.symm ▸ portable) (fun {name i} found => ?_) written).readAll _
    obtain ⟨o, placed, s, mem, rfl⟩ := (getElem?_index made).1 found
    refine ⟨(portable o (Array.mem_of_getElem? placed)).utf8ByteSize_le mem, ?_⟩
    rw [same]
    exact (Array.getElem?_eq_some_iff.1 placed).1

/-- A module that calls `out`. -/
def caller : Object :=
  ({ segments := ⟨⟨#[0x20, 0x00, 0x00]⟩, .empty, .empty⟩
     symbols := (∅ : Std.ExtTreeMap SymbolId Symbol compare)
      |>.insert 1 { id := 1, name := "main", address := .inSpace .code 0, isPublic := true }
      |>.insert 2 { id := 2, name := "out", address := .external 2 } } : Object)
    |>.addUse (.inSpace .code 1) (.external 2)

/-- The module that it calls, which has a constant too. -/
def callee : Object :=
  { segments := ⟨⟨#[0x60]⟩, .empty, .empty⟩
    symbols := (∅ : Std.ExtTreeMap SymbolId Symbol compare)
      |>.insert 5 { id := 5, name := "out", address := .inSpace .code 0, isPublic := true }
      |>.insert 9 { id := 9, name := "port", address := .constant 0xd012, isPublic := true } }

/-- The library of the two gives both names of the second module as its own, and comes back from its file. With the
second module twice there is no library. -/
theorem library_faithful_caller :
    (∃ l bytes, ofObjects #[caller, callee] [] = .ok l ∧ l.index["main"]? = some 0 ∧ l.index["out"]? = some 1
      ∧ l.index["port"]? = some 1 ∧ l.encode = .ok bytes ∧ ofBytes bytes = .ok l)
    ∧ ¬ ∃ l, ofObjects #[callee, callee] [] = .ok l := by
  have first : caller.Portable := Object.portable_of_isPortable (by decide +kernel)
  have second : callee.Portable := Object.portable_of_isPortable (by decide +kernel)
  have both : ∀ o ∈ #[caller, callee], o.Portable := by simp [first, second]
  have same : ∀ o ∈ #[callee, callee], o.Portable := by simp [second]
  obtain ⟨l, made⟩ := (library_faithful both []).1.2 (by decide +kernel)
  obtain ⟨-, index, file⟩ := (library_faithful both []).2 l made
  refine ⟨⟨l, ?_⟩, fun h => ?_⟩
  · cases written : l.encode with
    | error cause =>
      have succeeds : ((ofObjects #[caller, callee] []).bind encode).isOk = true := by decide +kernel
      rw [made] at succeeds
      change l.encode.isOk = true at succeeds
      rw [written] at succeeds
      cases succeeds
    | ok bytes =>
      refine ⟨bytes, made, (index ..).2 ?_, (index ..).2 ?_, (index ..).2 ?_, rfl, file bytes written⟩
      · exact ⟨caller, rfl, by decide +kernel⟩
      · exact ⟨callee, rfl, by decide +kernel⟩
      · exact ⟨callee, rfl, by decide +kernel⟩
  · have nodup := ((library_faithful same []).1.1 h).2
    revert nodup
    decide +kernel

end Library

end Asm65
