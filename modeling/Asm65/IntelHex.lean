import Asm65.Error

/-!
# Intel HEX

Data and end-of-file records, one a line: a colon, the number of data bytes, the load address, the type, the
data and a checksum that makes the sum of all bytes zero modulo 256.
-/

namespace Asm65.IntelHex
set_option autoImplicit false

inductive RecordType where
  | data
  | endOfFile
  deriving DecidableEq

namespace RecordType

def code : RecordType → UInt8
  | .data => 0
  | .endOfFile => 1

end RecordType

structure Record where
  address : UInt16
  type : RecordType
  data : List UInt8
  deriving DecidableEq

namespace Record

def ofData (address : UInt16) (data : List UInt8) : Record := ⟨address, .data, data⟩

def endOfFile : Record := ⟨0, .endOfFile, []⟩

/-- The byte that makes the sum of the record zero. -/
def checksum (r : Record) : UInt8 :=
  let head := UInt8.ofNat r.data.length + (r.address >>> 8).toUInt8 + r.address.toUInt8 + r.type.code
  0 - r.data.foldl (· + ·) head

def hexByte (b : UInt8) : String := Numeral.hex 2 b.toNat

/-- The record as a line. -/
def text (r : Record) : String :=
  ":" ++ Numeral.hex 2 r.data.length ++ Numeral.hex 4 r.address.toNat ++ hexByte r.type.code
    ++ String.join (r.data.map hexByte) ++ hexByte r.checksum ++ "\n"

end Record

/-- Records in order; none follows the end-of-file record. -/
structure File where
  records : Array Record := #[]
  ended : Bool := false

namespace File

def add (f : File) (r : Record) : Except Cause File :=
  if f.ended then .error .recordAfterEnd
  else .ok ⟨f.records.push r, r.type = .endOfFile⟩

/-- The most data bytes that a record of an image has. -/
def maxData : Nat := 32

/-- The data records of an image loaded at `base`. -/
def dataRecords (base : UInt16) (bytes : Array UInt8) : List Record :=
  (List.range ((bytes.size + maxData - 1) / maxData)).map fun i =>
    .ofData (base + UInt16.ofNat (i * maxData)) (bytes.extract (i * maxData) (i * maxData + maxData)).toList

/-- The file of an image loaded at `base`. -/
def ofImage (base : UInt16) (bytes : Array UInt8) : Except Cause File :=
  (dataRecords base bytes ++ [Record.endOfFile]).foldlM File.add {}

/-- The text of a finished file. -/
def text (f : File) : Except Cause String :=
  if f.ended then .ok (String.join (f.records.toList.map Record.text)) else .error .recordsUnfinished

end File

end Asm65.IntelHex
