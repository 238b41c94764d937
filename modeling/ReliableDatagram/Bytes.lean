import ReliableDatagram.Fault

/-!
# Bytes

Payloads and datagrams are finite sequences of bytes. Integers stand in them with
the most significant byte first; `read16` and `read32` are total and read a missing
byte as the whole number zero, since their callers have checked the length.
-/

namespace ReliableDatagram

abbrev Bytes := List UInt8

namespace Bytes

/-- The `length` bytes that begin at `start`; a fault if they are not all there. -/
def slice (bytes : Bytes) (start length : Nat) : Except Fault Bytes :=
  if start + length ≤ bytes.length then .ok ((bytes.drop start).take length)
  else .error .sliceOutOfRange

/-- `bytes` with those from `offset` on replaced by `patch`, as far as `patch` reaches. -/
def overwrite (bytes : Bytes) (offset : Nat) (patch : Bytes) : Bytes :=
  bytes.take offset ++ patch ++ bytes.drop (offset + patch.length)

/-! ## Integers, most significant byte first -/

def write16 (word : UInt16) : Bytes :=
  [UInt8.ofNat (word.toNat / 256), UInt8.ofNat word.toNat]

def write32 (word : UInt32) : Bytes :=
  [UInt8.ofNat (word.toNat / 16777216), UInt8.ofNat (word.toNat / 65536),
    UInt8.ofNat (word.toNat / 256), UInt8.ofNat word.toNat]

/-- The word that the first two bytes spell. -/
def read16 : Bytes → UInt16
  | b₁ :: b₀ :: _ => UInt16.ofNat (b₁.toNat * 256 + b₀.toNat)
  | _ => 0

/-- The word that the first four bytes spell. -/
def read32 : Bytes → UInt32
  | b₃ :: b₂ :: b₁ :: b₀ :: _ =>
    UInt32.ofNat (b₃.toNat * 16777216 + b₂.toNat * 65536 + b₁.toNat * 256 + b₀.toNat)
  | _ => 0

def byteAt (bytes : Bytes) (offset : Nat) : UInt8 := (bytes[offset]?).getD 0

def word16At (bytes : Bytes) (offset : Nat) : UInt16 := read16 (bytes.drop offset)

def word32At (bytes : Bytes) (offset : Nat) : UInt32 := read32 (bytes.drop offset)

@[simp] theorem length_write32 (word : UInt32) : (write32 word).length = 4 := rfl

@[simp] theorem read16_write16 (word : UInt16) (rest : Bytes) :
    read16 (write16 word ++ rest) = word := by
  apply UInt16.toNat_inj.mp
  have h := word.toNat_lt
  simp only [write16, List.cons_append, read16, UInt8.toNat_ofNat', UInt16.toNat_ofNat']
  omega

@[simp] theorem read32_write32 (word : UInt32) (rest : Bytes) :
    read32 (write32 word ++ rest) = word := by
  apply UInt32.toNat_inj.mp
  have h := word.toNat_lt
  simp only [write32, List.cons_append, read32, UInt8.toNat_ofNat', UInt32.toNat_ofNat']
  omega

end Bytes

end ReliableDatagram
