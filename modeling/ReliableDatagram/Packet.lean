import ReliableDatagram.Bytes

/-!
# Packets

A packet is what the application sends and receives: bytes with delivery flags.
Two flag bits have a meaning; the others are kept and ignored.
-/

namespace ReliableDatagram

structure PacketFlags where
  bits : UInt32
deriving DecidableEq, Repr, Inhabited

namespace PacketFlags

/-- No flag set: delivered at most once, in order, and dropped if late. -/
def plain : PacketFlags := ⟨0⟩

/-- Delivered exactly once and in order. -/
def reliable : PacketFlags := ⟨1⟩

/-- Delivered at most once, in any order. -/
def unsequenced : PacketFlags := ⟨2⟩

end PacketFlags

structure Packet where
  payload : Bytes
  /-- How it is to be delivered, or how it was. -/
  flags : PacketFlags
deriving DecidableEq, Repr, Inhabited

namespace Packet

def size (packet : Packet) : Nat := packet.payload.length

def isEmpty (packet : Packet) : Bool := packet.payload.isEmpty

def isReliable (packet : Packet) : Bool := packet.flags.bits &&& 1 == 1

def isUnsequenced (packet : Packet) : Bool := packet.flags.bits &&& 2 == 2

end Packet

end ReliableDatagram
