import ReliableDatagram.Bytes
import ReliableDatagram.Error

/-!
# The checksum trailer

A datagram may end in a four-byte digest of all bytes before it. Appending and
stripping work for any digest function; the one in use is CRC-32 with the reflected
polynomial `0xEDB88320`, all bits of the register set at the start and flipped at
the end.
-/

namespace ReliableDatagram

namespace Checksum

def size : Nat := 4

def shiftBit (register : UInt32) : UInt32 :=
  if register &&& 1 == 1 then (register >>> 1) ^^^ 0xEDB88320 else register >>> 1

def shiftByte (register : UInt32) (byte : UInt8) : UInt32 :=
  shiftBit (shiftBit (shiftBit (shiftBit (shiftBit (shiftBit (shiftBit (shiftBit
    (register ^^^ byte.toUInt32))))))))

def crc32 (bytes : Bytes) : UInt32 := bytes.foldl shiftByte 0xFFFFFFFF ^^^ 0xFFFFFFFF

/-- `bytes` with their digest as a trailer. -/
def append (digest : Bytes → UInt32) (bytes : Bytes) : Bytes :=
  bytes ++ Bytes.write32 (digest bytes)

/-- The bytes before the trailer, if the trailer is their digest. -/
def strip (digest : Bytes → UInt32) (bytes : Bytes) : Except DecodeError Bytes :=
  if bytes.length < size then .error .checksumMismatch
  else
    let content := bytes.take (bytes.length - size)
    if Bytes.read32 (bytes.drop (bytes.length - size)) == digest content then .ok content
    else .error .checksumMismatch

end Checksum

end ReliableDatagram
