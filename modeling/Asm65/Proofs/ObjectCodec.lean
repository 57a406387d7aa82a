import Asm65.Object.Codec
import Asm65.Proofs.OrderedMap

/-!
# Reading object files back

Every piece of the format is read back from its own bytes whatever follows them: numbers, names, addresses,
segments, symbols, uses. So the pieces can stand one after another without separators, and an object file gives
back the module, up to the symbols that no other module sees.
-/

namespace Asm65
set_option autoImplicit false

namespace Binary

variable {α β γ : Type}

/-- Reading takes exactly the bytes `bs`, whatever follows them, and gives `a`. -/
def Reads (read : Read α) (bs : List UInt8) (a : α) : Prop :=
  ∀ rest n, read ⟨bs ++ rest, n⟩ = .ok a ⟨rest, n + bs.length⟩

namespace Reads

theorem pure (a : α) : Reads (Pure.pure a) [] a := fun _ _ => rfl

theorem bind {read : Read α} {next : α → Read β} {bs cs : List UInt8} {a : α} {b : β} (first : Reads read bs a)
    (second : Reads (next a) cs b) : Reads (read >>= next) (bs ++ cs) b := by
  intro rest n
  show EStateM.bind read next _ = _
  unfold EStateM.bind
  rw [List.append_assoc, first (cs ++ rest) n]
  show next a _ = _
  rw [second rest (n + bs.length), List.length_append, Nat.add_assoc]

/-- What follows reads nothing more. -/
theorem bind_nil {read : Read α} {next : α → Read β} {bs : List UInt8} {a : α} {b : β} (first : Reads read bs a)
    (second : Reads (next a) [] b) : Reads (read >>= next) bs b := by
  have both := first.bind second
  rwa [List.append_nil] at both

theorem byte (b : UInt8) : Reads readByte [b] b := fun _ _ => rfl

theorem word (v : UInt16) : Reads readWord (word v) v := fun rest n => readWord_word v rest n

theorem take (bs : List UInt8) : Reads (take bs.length) bs bs := fun rest n => take_append bs rest n

/-- The bytes of a name are those of a text, so they are accepted as one. -/
theorem string {s : String} (short : s.utf8ByteSize ≤ 65535) : Reads readString (string s) s := by
  have size : (UInt16.ofNat s.utf8ByteSize).toNat = s.toUTF8.data.toList.length := by
    rw [UInt16.toNat_ofNat_of_lt' (Nat.lt_succ_of_le short)]
    rfl
  have text : String.fromUTF8? ⟨s.toUTF8.data.toList.toArray⟩ = some s := dif_pos s.isValidUTF8
  refine (word _).bind ?_
  rw [size]
  refine (take _).bind_nil ?_
  rw [text]
  exact pure s

/-- Elements one after another. -/
theorem repeated {read : Read α} {write : γ → List UInt8} {f : γ → α} {l : List γ} (acc : Array α)
    (each : ∀ c ∈ l, Reads read (write c) (f c)) :
    Reads (repeated read l.length acc) (l.flatMap write) (acc ++ (l.map f).toArray) := by
  induction l generalizing acc with
  | nil =>
    rw [List.map_nil, Array.append_empty]
    exact pure acc
  | cons c rest ih =>
    have first := each c (List.mem_cons_self ..)
    have others := ih (acc.push (f c)) fun d mem => each d (List.mem_cons_of_mem _ mem)
    rw [List.flatMap_cons, List.map_cons, List.toArray_cons]
    rw [Array.push_eq_append, Array.append_assoc] at others
    exact first.bind others

/-- A reader that takes all the bytes there are. -/
theorem readAll {read : Read α} {bs : List UInt8} {a : α} (h : Reads read bs a) (leftOver : Cause) :
    readAll read leftOver bs = .ok a := by
  have whole := h [] 0
  rw [List.append_nil] at whole
  unfold Binary.readAll
  rw [whole]
  rfl

end Reads

end Binary

open Binary

namespace Origin

/-- The number of an external symbol, as it stands in a file. -/
def number : Origin → List UInt8
  | .external id => word id
  | _ => []

end Origin

namespace Address

theorem reads_decodeOrigin (o : Origin) : Reads (decodeOrigin o.tag) o.number o := by
  rcases o with _ | (_ | _ | _) | id | _
  · exact .pure _
  · exact .pure _
  · exact .pure _
  · exact .pure _
  · exact (Reads.word id).bind_nil (.pure _)
  · exact .pure _

theorem reads_decodePart (part : Part) : Reads decodePart [UInt8.ofNat part.rank] part := by
  cases part <;> exact (Reads.byte _).bind_nil (.pure _)

/-- No origin has the flag of relative addresses as its tag. -/
theorem tag_ne_relativeFlag (o : Origin) : (o.tag == relativeFlag) = false := by
  rcases o with _ | (_ | _ | _) | id | _ <;> rfl

/-- A constant has no part in a file, so it must be whole. -/
def Whole (a : Address) : Prop := a.isConst = true → a.part = .word

/-- What stands in a file after the tag: the value, the number of an external symbol, and the part unless it is
a constant. -/
def afterTag (a : Address) : List UInt8 :=
  word a.value ++ (a.origin.number ++ if a.isConst then [] else [UInt8.ofNat a.part.rank])

theorem encode_eq (a : Address) :
    a.encode = (if a.relative then [relativeFlag] else []) ++ ([a.origin.tag] ++ a.afterTag) := by
  obtain ⟨_ | _ | _ | _, value, part, relative⟩ := a <;> simp [encode, afterTag, Origin.number]

/-- Reads what stands in a file after a tag. -/
def decodeAfterTag (relative : Bool) (tag : UInt8) : Read Address := do
  let value ← readWord
  let origin ← decodeOrigin tag
  let part ← if origin == .absolute then pure .word else decodePart
  return { origin, value, part, relative }

theorem reads_afterTag {a : Address} (whole : a.Whole) :
    Reads (decodeAfterTag a.relative a.origin.tag) a.afterTag a := by
  refine (Reads.word a.value).bind ((reads_decodeOrigin a.origin).bind ?_)
  unfold isConst
  split
  · rename_i absolute
    refine Reads.bind_nil (.pure _) ?_
    rw [← whole absolute]
    exact .pure a
  · exact (reads_decodePart a.part).bind_nil (.pure a)

theorem reads_decode {a : Address} (whole : a.Whole) : Reads decode a.encode a := by
  have tail := reads_afterTag whole
  rw [encode_eq]
  cases relative : a.relative with
  | true =>
    rw [relative] at tail
    exact (Reads.byte relativeFlag).bind ((Reads.byte a.origin.tag).bind tail)
  | false =>
    rw [relative] at tail
    refine (Reads.byte a.origin.tag).bind ?_
    rw [tag_ne_relativeFlag]
    exact tail

end Address

namespace Object

theorem of_count {what : String} {n : Nat} {bs : List UInt8} (h : count what n = .ok bs) :
    n < 0x10000 ∧ bs = word (.ofNat n) := by
  unfold count at h
  split at h <;> cases h
  exact ⟨‹_›, rfl⟩

/-- A number that was written as a word is read back. -/
theorem reads_count {n : Nat} (h : n < 0x10000) {β : Type} {next : UInt16 → Read β} {bs : List UInt8} {b : β}
    (rest : ∀ v : UInt16, v.toNat = n → Reads (next v) bs b) : Reads (readWord >>= next) (word (.ofNat n) ++ bs) b :=
  (Reads.word _).bind (rest _ (UInt16.toNat_ofNat_of_lt' h))

theorem reads_decodeSegment {s : Segment} {bs : List UInt8} (h : encodeSegment s = .ok bs) :
    Reads decodeSegment bs s := by
  unfold encodeSegment at h
  cases counted : count "segment bytes" s.size with
  | error cause => rw [counted] at h; cases h
  | ok number =>
    obtain ⟨fits, rfl⟩ := of_count counted
    rw [counted] at h
    cases h
    refine reads_count fits fun v same => ?_
    rw [same]
    exact (Reads.take s.bytes.toList).bind_nil (.pure s)

end Object

/-- A symbol as it comes back from a file: what it was declared as is gone, and whether other modules see it shows
in its address. -/
def Symbol.stored (s : Symbol) : Symbol := { s with isPublic := !s.address.isExternal, pass := 0 }

namespace Object

theorem reads_decodeSymbol {s : Symbol} (short : s.name.utf8ByteSize ≤ 65535) (whole : s.address.Whole) :
    Reads decodeSymbol (encodeSymbol s) s.stored := by
  unfold encodeSymbol
  rw [List.append_assoc]
  exact (Reads.word s.id).bind ((Reads.string short).bind ((Address.reads_decode whole).bind_nil (.pure _)))

theorem reads_decodeUse {known : Std.ExtTreeMap SymbolId Symbol compare} {site value : Address}
    (located : site.isRelocatable = true) (whole : value.Whole)
    (external : ∀ id, value.origin = .external id → known.contains id = true) :
    Reads (decodeUse known) (encodeUse (site, value)) (site, value) := by
  have siteWhole : site.Whole := by
    intro constant
    simp [Address.isRelocatable, Address.space?, eq_of_beq constant] at located
  refine (Address.reads_decode siteWhole).bind ?_
  rw [located]
  refine (Address.reads_decode whole).bind_nil ?_
  split
  · rename_i id origin
    rw [external id origin]
    exact .pure _
  · exact .pure _

/-- What an object file can hold: symbols under their own numbers, names that a word can count, uses in a space
whose external values refer to symbols of the file, and whole constants. -/
structure Storable (o : Object) : Prop where
  ids {id : SymbolId} {s : Symbol} (h : o.symbols[id]? = some s) : s.id = id
  names {id : SymbolId} {s : Symbol} (h : o.symbols[id]? = some s) (exported : s.isExported = true) :
    s.name.utf8ByteSize ≤ 65535
  addresses {id : SymbolId} {s : Symbol} (h : o.symbols[id]? = some s) (exported : s.isExported = true) :
    s.address.Whole
  sites {site value : Address} (h : o.uses[site]? = some value) : site.isRelocatable = true
  values {site value : Address} (h : o.uses[site]? = some value) : value.Whole
  externals {site value : Address} {id : SymbolId} (h : o.uses[site]? = some value) (origin : value.origin = .external id) :
    ∃ s, o.symbols[id]? = some s ∧ s.isExported = true

namespace Storable

variable {o : Object} (storable : o.Storable)

include storable

theorem mem_exported {s : Symbol} : s ∈ o.exported ↔ o.symbols[s.id]? = some s ∧ s.isExported = true := by
  unfold exported
  rw [List.mem_filter, OrderedMap.mem_values]
  constructor
  · rintro ⟨⟨id, found⟩, exported⟩
    exact ⟨storable.ids found ▸ found, exported⟩
  · rintro ⟨found, exported⟩
    exact ⟨⟨s.id, found⟩, exported⟩

theorem pairwise_exported : o.exported.Pairwise fun s t => s.id ≠ t.id := by
  unfold exported
  rw [OrderedMap.values_eq]
  refine .filter _ (List.pairwise_map.2 ?_)
  refine (Std.ExtTreeMap.distinct_keys_toList (t := o.symbols)).imp_of_mem fun {a b} ha hb apart same => apart ?_
  rw [Std.ExtTreeMap.mem_toList_iff_getElem?_eq_some] at ha hb
  rw [← storable.ids ha, ← storable.ids hb, same]
  exact Std.ReflCmp.compare_self

/-- The symbols that come back are the exported ones. -/
theorem getElem?_stored (id : SymbolId) :
    ((o.exported.map Symbol.stored).toArray.foldl (fun m s => m.insert s.id s)
      (∅ : Std.ExtTreeMap SymbolId Symbol compare))[id]? =
      ((o.symbols[id]?).filter (·.isExported)).map Symbol.stored := by
  have entries : (o.exported.map Symbol.stored).toArray.foldl (fun m s => m.insert s.id s)
      (∅ : Std.ExtTreeMap SymbolId Symbol compare) =
        (o.exported.map fun s => (s.id, s.stored)).foldl (fun m e => m.insert e.1 e.2) ∅ := by
    rw [List.foldl_toArray, List.foldl_map, List.foldl_map]
    rfl
  have distinct : (o.exported.map fun s => (s.id, s.stored)).Pairwise fun a b => a.1 ≠ b.1 :=
    List.pairwise_map.2 storable.pairwise_exported
  rw [entries]
  refine Option.ext fun t => ?_
  rw [OrderedMap.getElem?_foldl_insert distinct, List.mem_map, Option.map_eq_some_iff]
  constructor
  · rintro ⟨s, mem, same⟩
    cases same
    obtain ⟨found, exported⟩ := storable.mem_exported.1 mem
    exact ⟨s, Option.filter_eq_some_iff.2 ⟨found, exported⟩, rfl⟩
  · rintro ⟨s, kept, rfl⟩
    obtain ⟨found, exported⟩ := Option.filter_eq_some_iff.1 kept
    obtain rfl := storable.ids found
    exact ⟨s, storable.mem_exported.2 ⟨found, exported⟩, rfl⟩

end Storable

/-- An encoding that succeeds is the pieces of the file one after another. -/
theorem exists_of_encode {o : Object} {bytes : List UInt8} (h : o.encode = .ok bytes) :
    ∃ code data zeroPage, encodeSegment o.segments.code = .ok code ∧ encodeSegment o.segments.data = .ok data
      ∧ encodeSegment o.segments.zeroPage = .ok zeroPage ∧ o.exported.length < 0x10000 ∧ o.uses.size < 0x10000
      ∧ bytes = word version ++ (code ++ (data ++ (zeroPage
          ++ (word (.ofNat o.exported.length) ++ (o.exported.flatMap encodeSymbol
          ++ (word (.ofNat o.uses.size) ++ o.uses.toList.flatMap encodeUse)))))) := by
  obtain ⟨code, hcode, h⟩ := exists_of_bind h
  obtain ⟨data, hdata, h⟩ := exists_of_bind h
  obtain ⟨zeroPage, hzeroPage, h⟩ := exists_of_bind h
  obtain ⟨symbols, hsymbols, h⟩ := exists_of_bind h
  obtain ⟨uses, huses, h⟩ := exists_of_bind h
  obtain ⟨fewSymbols, rfl⟩ := of_count hsymbols
  obtain ⟨fewUses, rfl⟩ := of_count huses
  cases h
  exact ⟨code, data, zeroPage, hcode, hdata, hzeroPage, fewSymbols, fewUses, by simp only [List.append_assoc]⟩

/-- The module that comes back from a file. -/
def stored (o : Object) : Object :=
  { o with symbols := (o.exported.map Symbol.stored).toArray.foldl (fun m s => m.insert s.id s) ∅ }

/-- What is written for an object that a file can hold is read as the module that comes back. -/
theorem reads_decode {o : Object} (storable : o.Storable) {bytes : List UInt8} (written : o.encode = .ok bytes) :
    Reads decode bytes o.stored := by
  obtain ⟨code, data, zeroPage, hcode, hdata, hzeroPage, fewSymbols, fewUses, rfl⟩ := exists_of_encode written
  have symbols := Reads.repeated (l := o.exported) (f := Symbol.stored) #[] fun s mem =>
    have ⟨found, exported⟩ := storable.mem_exported.1 mem
    reads_decodeSymbol (storable.names found exported) (storable.addresses found exported)
  have uses : Reads (repeated (decodeUse o.stored.symbols) o.uses.toList.length #[])
      (o.uses.toList.flatMap encodeUse) (#[] ++ (o.uses.toList.map id).toArray) := .repeated #[] fun use mem => by
    have found := Std.ExtTreeMap.mem_toList_iff_getElem?_eq_some.1 mem
    refine reads_decodeUse (storable.sites found) (storable.values found) fun id origin => ?_
    obtain ⟨s, declared, exported⟩ := storable.externals found origin
    rw [← Std.ExtTreeMap.isSome_getElem?_eq_contains]
    rw [stored, storable.getElem?_stored, declared, Option.filter_some_pos exported]
    rfl
  rw [Array.empty_append] at symbols uses
  rw [List.map_id] at uses
  refine (Reads.word version).bind ?_
  refine (reads_decodeSegment hcode).bind ((reads_decodeSegment hdata).bind ((reads_decodeSegment hzeroPage).bind ?_))
  refine reads_count fewSymbols fun n same => ?_
  rw [same]
  refine symbols.bind ?_
  refine reads_count fewUses fun n same => ?_
  rw [same, ← Std.ExtTreeMap.length_toList]
  refine uses.bind_nil ?_
  rw [List.foldl_toArray, OrderedMap.foldl_insert_toList]
  exact .pure _

/-- A file gives back the module that was written to it: its segments, its uses and the symbols that other
modules see. -/
theorem ofBytes_of_encode {o : Object} (storable : o.Storable) {bytes : List UInt8} (written : o.encode = .ok bytes) :
    ∃ p, ofBytes bytes = .ok p ∧ p.segments = o.segments ∧ p.uses = o.uses
      ∧ ∀ id : SymbolId, p.symbols[id]? = ((o.symbols[id]?).filter (·.isExported)).map Symbol.stored :=
  ⟨o.stored, (reads_decode storable written).readAll _, rfl, rfl, storable.getElem?_stored⟩

/-- A call of an external name, a branch back to a label of the module's own, and a public name. -/
def externalCall : Object :=
  ({ segments := ⟨⟨#[0x20, 0x00, 0x00, 0xd0, 0xfb]⟩, .empty, .empty⟩
     symbols := (∅ : Std.ExtTreeMap SymbolId Symbol compare)
      |>.insert 1 { id := 1, name := "main", address := .inSpace .code 0, isPublic := true, pass := 2 }
      |>.insert 2 { id := 2, name := "back", address := .inSpace .code 0, pass := 2 }
      |>.insert 3 { id := 3, name := "out", address := .external 3, pass := 2 } } : Object)
    |>.addUse (.inSpace .code 1) (.external 3)
    |>.addUse (.inSpace .code 4) { Address.inSpace .code 0 with part := .low, relative := true }

/-- A file can hold it: all uses are in its code, and external values refer to its one external symbol. -/
theorem storable_externalCall : externalCall.Storable := by
  have symbols : ∀ e ∈ externalCall.symbols.toList,
      e.2.id = e.1 ∧ e.2.name.utf8ByteSize ≤ 65535 ∧ e.2.address.isConst = false := by decide +kernel
  have uses : ∀ u ∈ externalCall.uses.toList, u.1.isRelocatable = true ∧ u.2.isConst = false
      ∧ (u.2.isExternal = true → u.2.origin = .external 3) := by decide +kernel
  have symbol {id : SymbolId} {s : Symbol} (h : externalCall.symbols[id]? = some s) :=
    symbols (id, s) (Std.ExtTreeMap.mem_toList_iff_getElem?_eq_some.2 h)
  have use {site value : Address} (h : externalCall.uses[site]? = some value) :=
    uses (site, value) (Std.ExtTreeMap.mem_toList_iff_getElem?_eq_some.2 h)
  refine ⟨fun h => (symbol h).1, fun h _ => (symbol h).2.1, fun h _ constant => ?_, fun h => (use h).1,
    fun h constant => ?_, fun h origin => ?_⟩
  · rw [(symbol h).2.2] at constant
    cases constant
  · rw [(use h).2.1] at constant
    cases constant
  · have external := (use h).2.2 (by rw [Address.isExternal, origin])
    rw [origin] at external
    cases external
    exact ⟨_, by rfl, by rfl⟩

/-- The local label is gone, the external name is still one, and the public name is still public. -/
theorem ofBytes_of_encode_externalCall :
    ∃ bytes p, externalCall.encode = .ok bytes ∧ ofBytes bytes = .ok p ∧ p.segments = externalCall.segments
      ∧ p.uses = externalCall.uses ∧ p.symbols[(2 : SymbolId)]? = none
      ∧ (p.symbols[(1 : SymbolId)]?).map (·.isPublic) = some true
      ∧ (p.symbols[(3 : SymbolId)]?).map (·.isPublic) = some false := by
  have succeeds : externalCall.encode.isOk = true := by decide +kernel
  cases written : externalCall.encode with
  | error cause => rw [written] at succeeds; cases succeeds
  | ok bytes =>
    obtain ⟨p, read, segments, uses, symbols⟩ := ofBytes_of_encode storable_externalCall written
    refine ⟨bytes, p, rfl, read, segments, uses, ?_, ?_, ?_⟩
    · rw [symbols]; decide +kernel
    · rw [symbols]; decide +kernel
    · rw [symbols]; decide +kernel

end Object

end Asm65
