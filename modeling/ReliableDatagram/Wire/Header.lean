import ReliableDatagram.Bytes
import ReliableDatagram.Error
import ReliableDatagram.Stamp

/-!
# The datagram header

Twelve bytes open every datagram: the slot that the receiver gave the connection,
flags, the number of commands, the time of sending and the challenge that tells
one connection in a slot from the next.
-/

namespace ReliableDatagram

/-- The slot number that names no slot: the sender does not know its own yet. -/
def unassignedPeer : UInt16 := 0xFFFF

/-- The first twelve bytes of a datagram. -/
structure Header where
  /-- The slot of the connection at the receiver. -/
  peer : UInt16
  /-- The raw flag bits; unknown ones are kept. -/
  flags : UInt8
  commandCount : UInt8
  /-- When the sender composed the datagram, by its own clock. -/
  sentTime : Stamp
  /-- The number drawn for this connection by its initiator. -/
  challenge : UInt32
deriving DecidableEq, Repr, Inhabited

namespace Header

def size : Nat := 12

/-- The flag bit that announces a checksum trailer. -/
def checksumFlag : UInt8 := 1

def isUnassigned (header : Header) : Bool := header.peer == unassignedPeer

def hasChecksum (header : Header) : Bool := header.flags &&& checksumFlag == checksumFlag

def encode (header : Header) : Bytes :=
  Bytes.write16 header.peer ++ [header.flags, header.commandCount] ++
    Bytes.write32 header.sentTime ++ Bytes.write32 header.challenge

/-- The header that the first twelve bytes spell, if there are that many. -/
def decode (bytes : Bytes) : Except DecodeError Header :=
  if bytes.length < size then .error .headerTooShort
  else .ok {
    peer := bytes.word16At 0
    flags := bytes.byteAt 2
    commandCount := bytes.byteAt 3
    sentTime := bytes.word32At 4
    challenge := bytes.word32At 8 }

@[simp] theorem length_encode (header : Header) : header.encode.length = size := rfl

end Header

end ReliableDatagram
