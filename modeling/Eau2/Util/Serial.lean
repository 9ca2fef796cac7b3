import Eau2.Lib.Codec
import Eau2.Util.Bytes

/-!
# Serialization

`Serializer` appends the encoding of a value to a buffer, and `Deserializer`
reads it back. A number is stored as it is in memory, with the low byte first. A
string is preceded by its length, and may not be empty: `add_buffer` and
`get_buffer` assert that there is something to copy.

A failed assertion is `none`.
-/

namespace Eau2

/-- A `String`, of `size_` characters. -/
structure Str where
  chars : Bytes
  size_lt : chars.length < 2 ^ 64

instance : DecidableEq Str := fun s t =>
  decidable_of_iff (s.chars = t.chars) ⟨fun h => by cases s; cases t; simpa using h, congrArg _⟩

namespace Serializer

def addInt (val : BitVec 32) : Bytes := LittleEndian.encode 4 val.toNat

def addDouble (val : BitVec 64) : Bytes := LittleEndian.encode 8 val.toNat

def addBool (val : Bool) : Bytes := [if val then 1 else 0]

def addUint16 (val : BitVec 16) : Bytes := LittleEndian.encode 2 val.toNat

def addUint32 (val : BitVec 32) : Bytes := LittleEndian.encode 4 val.toNat

def addSizeT (val : Nat) : Bytes := LittleEndian.encode 8 val

def addBuffer (buf : Bytes) : Option Bytes := if buf ≠ [] then some buf else none

def addString (s : Bytes) : Option Bytes := (addBuffer s).map (addSizeT s.length ++ ·)

end Serializer

/-- A `Deserializer`: what is left of the bytes. -/
abbrev Deserializer := Decoder UInt8

namespace Deserializer

def getInt : Deserializer (BitVec 32) := BitVec.ofNat 32 <$> LittleEndian.decode <$> Decoder.take 4

def getDouble : Deserializer (BitVec 64) :=
  BitVec.ofNat 64 <$> LittleEndian.decode <$> Decoder.take 8

def getBool : Deserializer Bool := (fun n => n != 0) <$> LittleEndian.decode <$> Decoder.take 1

def getUint16 : Deserializer (BitVec 16) :=
  BitVec.ofNat 16 <$> LittleEndian.decode <$> Decoder.take 2

def getUint32 : Deserializer (BitVec 32) :=
  BitVec.ofNat 32 <$> LittleEndian.decode <$> Decoder.take 4

def getSizeT : Deserializer Nat := LittleEndian.decode <$> Decoder.take 8

def getBuffer (numBytes : Nat) : Deserializer Bytes := do
  Decoder.assert (0 < numBytes)
  Decoder.take numBytes

def getString : Deserializer Bytes := do
  let len ← getSizeT
  getBuffer len

end Deserializer

open Serializer Deserializer

/-- A machine integer of `n` bits in `w` bytes. -/
theorem decodes_bitVec {n w : Nat} (hn : 2 ^ n = 256 ^ w) (val : BitVec n) :
    Decodes (BitVec.ofNat n <$> LittleEndian.decode <$> Decoder.take w)
      (LittleEndian.encode w val.toNat) val := by
  have h := (LittleEndian.decodes (hn ▸ val.isLt)).map (BitVec.ofNat n)
  rwa [BitVec.ofNat_toNat, BitVec.setWidth_eq] at h

theorem decodes_int (val : BitVec 32) : Decodes getInt (addInt val) val :=
  decodes_bitVec (by norm_num) val

theorem decodes_double (val : BitVec 64) : Decodes getDouble (addDouble val) val :=
  decodes_bitVec (by norm_num) val

theorem decodes_uint16 (val : BitVec 16) : Decodes getUint16 (addUint16 val) val :=
  decodes_bitVec (by norm_num) val

theorem decodes_uint32 (val : BitVec 32) : Decodes getUint32 (addUint32 val) val :=
  decodes_bitVec (by norm_num) val

theorem decodes_bool (val : Bool) : Decodes getBool (addBool val) val := by
  have h := fun n (hn : n < 256 ^ 1) => (LittleEndian.decodes hn).map fun n => n != 0
  cases val
  · exact h 0 (by decide)
  · exact h 1 (by decide)

theorem decodes_sizeT {val : Nat} (h : val < 2 ^ 64) : Decodes getSizeT (addSizeT val) val :=
  LittleEndian.decodes h

theorem addString_eq {s : Bytes} (h : s ≠ []) : addString s = some (addSizeT s.length ++ s) := by
  simp [addString, addBuffer, h]

theorem addString_nil : addString [] = none := rfl

theorem decodes_buffer {buf : Bytes} (h : buf ≠ []) : Decodes (getBuffer buf.length) buf buf :=
  (Decodes.assert (List.length_pos_of_ne_nil h)).bind (Decodes.take buf)

theorem decodes_string {s : Bytes} (h : s ≠ []) (hs : s.length < 2 ^ 64) :
    Decodes getString (addSizeT s.length ++ s) s :=
  (decodes_sizeT hs).bind (decodes_buffer h)

end Eau2
