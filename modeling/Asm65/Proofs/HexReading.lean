import Asm65.Target

/-!
# Reading Intel HEX

A reader of the format that knows nothing of the writer: a line is a colon and pairs of digits, the pairs are a
length, an address, a type, as much data as the length says and one byte more, and all of them add up to zero.
The file of an image reads as data records that place each byte of the image at its address, in order, and then
as the end of the file.
-/

namespace Asm65
set_option autoImplicit false

namespace Numeral

/-- The upper-case digit for a value below sixteen. -/
def hexDigit (n : Nat) : Char := n.digitChar.toUpper

theorem hexValue?_hexDigit {n : Nat} (h : n < 16) : hexValue? (hexDigit n) = some n := by
  revert n
  decide

theorem toDigits_toUpper (n : Nat) :
    (Nat.toDigits 16 n).map Char.toUpper
      = (if n < 16 then [] else (Nat.toDigits 16 (n / 16)).map Char.toUpper) ++ [hexDigit (n % 16)] := by
  rw [Nat.toDigits_eq_if (by decide)]
  split
  · next h => simp [hexDigit, Nat.mod_eq_of_lt h]
  · simp [hexDigit]

theorem hexDigits_one {n : Nat} (h : n < 16) : hexDigits 1 n = [hexDigit n] := by
  rw [hexDigits, toDigits_toUpper, if_pos h, Nat.mod_eq_of_lt h]
  rfl

/-- The last digit comes off the end, and the padding stays in front of the others. -/
theorem hexDigits_succ (width n : Nat) :
    hexDigits (width + 2) n = hexDigits (width + 1) (n / 16) ++ [hexDigit (n % 16)] := by
  rw [hexDigits, toDigits_toUpper]
  split
  · next h =>
    rw [Nat.div_eq_of_lt h]
    simp [hexDigits, List.leftpad, List.replicate_succ']
  · simp [hexDigits, List.leftpad]

theorem hexDigits_two {n : Nat} (h : n < 256) : hexDigits 2 n = [hexDigit (n / 16), hexDigit (n % 16)] := by
  rw [hexDigits_succ, hexDigits_one (by omega)]
  rfl

/-- A word is written as its two bytes, the high one first. -/
theorem hexDigits_four (n : Nat) : hexDigits 4 n = hexDigits 2 (n / 256) ++ hexDigits 2 (n % 256) := by
  have high : n % 256 / 16 = n / 16 % 16 := by omega
  have low : n % 256 % 16 = n % 16 := by omega
  rw [hexDigits_two (show n % 256 < 256 by omega), high, low, hexDigits_succ, hexDigits_succ,
    Nat.div_div_eq_div_mul, List.append_assoc]
  rfl

end Numeral

namespace Text

theorem splitOn_terminated {rows : List (List Char)} (h : ∀ row ∈ rows, '\n' ∉ row) :
    (rows.flatMap (· ++ ['\n'])).splitOn '\n' = rows ++ [[]] := by
  induction rows with
  | nil => rfl
  | cons row rows ih =>
    have rest := ih fun r hr => h r (List.mem_cons_of_mem _ hr)
    rw [List.flatMap_cons, List.append_assoc, List.singleton_append,
      List.splitOn_append_cons_self_of_not_mem (h row List.mem_cons_self), rest, List.cons_append]

theorem dropReturns_eq_self {row : List Char} (h : '\r' ∉ row) : dropReturns row = row := by
  rw [← List.mem_reverse] at h
  rw [dropReturns]
  cases mirrored : row.reverse with
  | nil => rw [List.dropWhile_nil, ← mirrored, List.reverse_reverse]
  | cons c rest =>
    have last : (c == '\r') = false := by
      rw [mirrored] at h
      grind
    rw [List.dropWhile_cons_of_neg (by simp [last]), ← mirrored, List.reverse_reverse]

/-- A text of terminated lines has those lines. -/
theorem lines_terminated {text : String} {rows : List (List Char)} (written : text.toList = rows.flatMap (· ++ ['\n']))
    (h : ∀ row ∈ rows, '\n' ∉ row ∧ '\r' ∉ row) : lines text = rows.map String.ofList := by
  simp only [lines, written, splitOn_terminated fun row hr => (h row hr).1, List.getLast?_concat, List.dropLast_concat,
    if_true]
  exact List.map_congr_left fun row hr => by rw [dropReturns_eq_self (h row hr).2]

end Text

namespace IntelHex

/-- The bytes that a row of digits spells, two digits each. -/
def bytes? : List Char → Option (List UInt8)
  | [] => some []
  | [_] => none
  | high :: low :: rest => do
    let h ← Numeral.hexValue? high
    let l ← Numeral.hexValue? low
    return UInt8.ofNat (16 * h + l) :: (← bytes? rest)

def RecordType.ofCode? (code : UInt8) : Option RecordType :=
  if code = 0 then some .data else if code = 1 then some .endOfFile else none

namespace Record

/-- The record that a row of bytes is: the length agrees with the row, and the bytes add up to zero. -/
def ofBytes? : List UInt8 → Option Record
  | length :: high :: low :: code :: rest =>
    if rest.length = length.toNat + 1 ∧ rest.foldl (· + ·) (length + high + low + code) = 0 then
      (RecordType.ofCode? code).map (Record.mk (low.toUInt16 ||| high.toUInt16 <<< 8) · rest.dropLast)
    else none
  | _ => none

/-- The record on a line. -/
def ofLine? : List Char → Option Record
  | ':' :: digits => bytes? digits >>= ofBytes?
  | _ => none

/-- Bytes with the addresses they are loaded at. -/
def cells (r : Record) : List (UInt8 × Nat) := r.data.zipIdx r.address.toNat

end Record

/-- The records of a file, one a line. -/
def File.read? (contents : Array UInt8) : Option (List Record) := do
  let text ← String.fromUTF8? ⟨contents⟩
  (Text.lines text).mapM fun line => Record.ofLine? line.toList

/-- The two digits of a byte. -/
def digits (b : UInt8) : List Char := Numeral.hexDigits 2 b.toNat

theorem bytes?_digits (bs : List UInt8) : bytes? (bs.flatMap digits) = some bs := by
  induction bs with
  | nil => rfl
  | cons b bs ih =>
    have hb : b.toNat < 256 := b.toNat_lt
    have whole : 16 * (b.toNat / 16) + b.toNat % 16 = b.toNat := by omega
    simp only [List.flatMap_cons, digits, Numeral.hexDigits_two hb, List.cons_append, List.nil_append, bytes?,
      Numeral.hexValue?_hexDigit (show b.toNat / 16 < 16 by omega),
      Numeral.hexValue?_hexDigit (show b.toNat % 16 < 16 by omega), Option.bind_eq_bind, Option.bind_some, whole]
    change (bytes? (bs.flatMap digits)).bind _ = _
    rw [ih, UInt8.ofNat_toNat]
    rfl

/-- Digits are no line terminators. -/
theorem ne_of_mem_digits {b : UInt8} {c d : Char} (h : c ∈ digits b) (other : Numeral.hexValue? d = none) : c ≠ d := by
  rintro rfl
  have hb : b.toNat < 256 := b.toNat_lt
  rw [digits, Numeral.hexDigits_two hb] at h
  obtain rfl | rfl := (List.mem_cons.1 h).imp_right List.mem_singleton.1
  · rw [Numeral.hexValue?_hexDigit (by omega)] at other
    cases other
  · rw [Numeral.hexValue?_hexDigit (by omega)] at other
    cases other

namespace Record

/-- The bytes that a record is written with. -/
def octets (r : Record) : List UInt8 :=
  UInt8.ofNat r.data.length :: (r.address >>> 8).toUInt8 :: r.address.toUInt8 :: r.type.code
    :: (r.data ++ [r.checksum])

/-- The line of a record, without its terminator. -/
def row (r : Record) : List Char := ':' :: r.octets.flatMap digits

/-- A short record is printed as its row and a line feed. -/
theorem toList_text {r : Record} (short : r.data.length < 256) : r.text.toList = r.row ++ ['\n'] := by
  have length : Numeral.hexDigits 2 r.data.length = digits (UInt8.ofNat r.data.length) := by
    rw [digits, UInt8.toNat_ofNat_of_lt' short]
  have address : Numeral.hexDigits 4 r.address.toNat
      = digits (r.address >>> 8).toUInt8 ++ digits r.address.toUInt8 := by
    have word : r.address.toNat < 0x10000 := r.address.toNat_lt
    have high : ((r.address >>> 8).toUInt8).toNat = r.address.toNat / 256 := by
      simp [Nat.shiftRight_eq_div_pow]
      omega
    rw [Numeral.hexDigits_four, digits, digits, high, UInt16.toNat_toUInt8]
  have data : (r.data.map hexByte).flatMap String.toList = r.data.flatMap digits := by
    simp only [List.flatMap_map, hexByte, Numeral.hex, String.toList_ofList]
    rfl
  simp only [text, String.toList_append, String.toList_join, data, hexByte, Numeral.hex, String.toList_ofList, length,
    address, row, octets, List.flatMap_cons, List.flatMap_append, List.flatMap_nil, digits]
  simp

theorem ofCode?_code (t : RecordType) : RecordType.ofCode? t.code = some t := by
  cases t <;> rfl

/-- The sum of a record is zero. -/
theorem ofBytes?_octets {r : Record} (short : r.data.length < 256) : ofBytes? r.octets = some r := by
  have length : (r.data ++ [r.checksum]).length = (UInt8.ofNat r.data.length).toNat + 1 := by
    rw [UInt8.toNat_ofNat_of_lt' short, List.length_append]
    rfl
  have sum : (r.data ++ [r.checksum]).foldl (· + ·)
      (UInt8.ofNat r.data.length + (r.address >>> 8).toUInt8 + r.address.toUInt8 + r.type.code) = 0 := by
    rw [List.foldl_append, List.foldl_cons, List.foldl_nil, checksum]
    exact UInt8.add_right_neg _
  rw [octets, ofBytes?, if_pos ⟨length, sum⟩, ofCode?_code, Option.map_some, Binary.word_bytes, List.dropLast_concat]

theorem ofLine?_row {r : Record} (short : r.data.length < 256) : ofLine? r.row = some r := by
  rw [row, ofLine?, bytes?_digits]
  exact ofBytes?_octets short

theorem not_mem_row {r : Record} {c : Char} (other : Numeral.hexValue? c = none) (colon : c ≠ ':') : c ∉ r.row := by
  intro h
  obtain rfl | h := List.mem_cons.1 h
  · exact colon rfl
  · obtain ⟨b, -, hc⟩ := List.mem_flatMap.1 h
    exact ne_of_mem_digits hc other rfl

end Record

namespace File

/-- The text of a list of records reads as the list. -/
theorem read?_join {records : List Record} (short : ∀ r ∈ records, r.data.length < 256) :
    read? (String.join (records.map Record.text)).toUTF8.data = some records := by
  have text : (String.join (records.map Record.text)).toList = (records.map Record.row).flatMap (· ++ ['\n']) := by
    rw [String.toList_join, List.flatMap_map, List.flatMap_map, List.flatMap_def, List.flatMap_def]
    exact congrArg List.flatten (List.map_congr_left fun r hr => Record.toList_text (short r hr))
  have plain : ∀ row ∈ records.map Record.row, '\n' ∉ row ∧ '\r' ∉ row := by
    intro row hrow
    obtain ⟨r, -, rfl⟩ := List.mem_map.1 hrow
    exact ⟨Record.not_mem_row rfl (by decide), Record.not_mem_row rfl (by decide)⟩
  have whole : String.fromUTF8? ⟨(String.join (records.map Record.text)).toUTF8.data⟩
      = some (String.join (records.map Record.text)) := dif_pos (String.isValidUTF8 _)
  rw [read?, whole, Option.bind_eq_bind, Option.bind_some, Text.lines_terminated text plain]
  clear text plain whole
  induction records with
  | nil => rfl
  | cons r records ih =>
    have rest := ih fun q hq => short q (by simp [hq])
    rw [List.map_cons, List.map_cons, List.mapM_cons, rest, String.toList_ofList, Record.ofLine?_row (short r (by simp))]
    rfl

/-- Data records are added to a file that has not ended. -/
theorem foldlM_add {records : List Record} (data : ∀ r ∈ records, r.type = .data) (f : File) (going : f.ended = false) :
    records.foldlM add f = .ok ⟨f.records ++ records.toArray, false⟩ := by
  induction records generalizing f with
  | nil =>
    obtain ⟨written, ended⟩ := f
    cases going
    simp [pure, Except.pure]
  | cons r records ih =>
    have first : f.add r = .ok ⟨f.records.push r, false⟩ := by
      simp [add, going, data r (by simp)]
    rw [List.foldlM_cons, first]
    change records.foldlM add _ = _
    rw [ih (fun q hq => data q (by simp [hq])) _ rfl]
    simp

section

variable {base : UInt16} {bytes : Array UInt8}

/-- A data record of an image holds some of the bytes, as many as fit. -/
theorem of_mem_dataRecords {r : Record} (h : r ∈ dataRecords base bytes) :
    r.type = .data ∧ 1 ≤ r.data.length ∧ r.data.length ≤ maxData := by
  obtain ⟨i, hi, rfl⟩ := List.mem_map.1 h
  rw [List.mem_range] at hi
  have size : (Record.ofData (base + UInt16.ofNat (i * maxData))
      (bytes.extract (i * maxData) (i * maxData + maxData)).toList).data.length = min maxData (bytes.size - i * maxData) := by
    simp [Record.ofData]
  rw [size]
  simp only [maxData] at hi ⊢
  exact ⟨rfl, by omega, by omega⟩

theorem ofImage_eq (base : UInt16) (bytes : Array UInt8) :
    ofImage base bytes = .ok ⟨(dataRecords base bytes ++ [Record.endOfFile]).toArray, true⟩ := by
  rw [ofImage, List.foldlM_append, foldlM_add (fun r hr => (of_mem_dataRecords hr).1) {} rfl]
  simp [add, Record.endOfFile, bind, Except.bind, pure, Except.pure]

/-- The first `n` records place as many bytes as they can hold. -/
theorem cells_records (fits : base.toNat + bytes.size ≤ 0x10000) {n : Nat}
    (hn : n ≤ (bytes.size + maxData - 1) / maxData) :
    ((List.range n).map fun i => Record.ofData (base + UInt16.ofNat (i * maxData))
      (bytes.extract (i * maxData) (i * maxData + maxData)).toList).flatMap Record.cells
      = (bytes.toList.take (n * maxData)).zipIdx base.toNat := by
  induction n with
  | zero => simp
  | succ n ih =>
    have below : n * maxData < bytes.size := by
      simp only [maxData] at hn ⊢
      omega
    have address : (base + UInt16.ofNat (n * maxData)).toNat = base.toNat + n * maxData := by
      rw [UInt16.toNat_add, UInt16.toNat_ofNat_of_lt' (Nat.lt_of_lt_of_le below (by simp only [UInt16.size]; omega))]
      omega
    have data : (bytes.extract (n * maxData) (n * maxData + maxData)).toList
        = (bytes.toList.drop (n * maxData)).take maxData := by
      simp [List.extract_eq_take_drop]
    rw [List.range_succ, List.map_append, List.flatMap_append, ih (by omega), Nat.succ_mul, List.take_add,
      List.zipIdx_append]
    simp only [List.map_cons, List.map_nil, List.flatMap_cons, List.flatMap_nil, List.append_nil, Record.cells,
      Record.ofData, address, data, List.length_take, Array.length_toList, Nat.min_eq_left (Nat.le_of_lt below)]

theorem cells_dataRecords (fits : base.toNat + bytes.size ≤ 0x10000) :
    (dataRecords base bytes).flatMap Record.cells = bytes.toList.zipIdx base.toNat := by
  rw [dataRecords, cells_records fits Nat.le.refl, List.take_of_length_le]
  simp only [Array.length_toList, maxData]
  omega

end

end File

end IntelHex

namespace Target
open IntelHex

/-- The Intel HEX file of an image that fits the memory reads as data records of one to thirty-two bytes, which place
the bytes one after another from the base, and the end-of-file record on the last line. -/
theorem read?_render_intelHex {base : UInt16} {bytes : Array UInt8} (fits : base.toNat + bytes.size ≤ 0x10000) :
    ∃ contents records, Target.intelHex.render base bytes = .ok contents
      ∧ File.read? contents = some (records ++ [Record.endOfFile])
      ∧ (∀ r ∈ records, r.type = .data ∧ 1 ≤ r.data.length ∧ r.data.length ≤ 32)
      ∧ records.flatMap Record.cells = bytes.toList.zipIdx base.toNat := by
  have short : ∀ r ∈ File.dataRecords base bytes ++ [Record.endOfFile], r.data.length < 256 := by
    intro r hr
    obtain hr | rfl := List.mem_append.1 hr |>.imp_right List.mem_singleton.1
    · exact Nat.lt_of_le_of_lt (File.of_mem_dataRecords hr).2.2 (by decide)
    · decide
  refine ⟨_, File.dataRecords base bytes, ?_, File.read?_join short, fun r hr => File.of_mem_dataRecords hr,
    File.cells_dataRecords fits⟩
  rw [render, File.ofImage_eq]
  rfl

/-- An image up to the last address: one full record and one of a single byte. -/
theorem read?_render_intelHex_to_the_end :
    (0xffdf : UInt16).toNat + (Array.replicate 33 (0xea : UInt8)).size = 0x10000
      ∧ ∃ contents records, Target.intelHex.render 0xffdf (Array.replicate 33 0xea) = .ok contents
        ∧ File.read? contents = some (records ++ [Record.endOfFile])
        ∧ (∀ r ∈ records, r.type = .data ∧ 1 ≤ r.data.length ∧ r.data.length ≤ 32)
        ∧ records.flatMap Record.cells = (Array.replicate 33 (0xea : UInt8)).toList.zipIdx 0xffdf :=
  ⟨rfl, read?_render_intelHex (by decide)⟩

end Target

end Asm65
