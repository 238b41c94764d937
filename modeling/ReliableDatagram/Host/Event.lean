import ReliableDatagram.Error
import ReliableDatagram.Packet

/-!
# Events

A host reports to the application one event at a time: connections that come and go,
packets that arrive, failures of the socket, or that nothing happened.
-/

namespace ReliableDatagram

/-- The number of a slot, which names the connection in it. -/
abbrev PeerId := UInt16

namespace PeerId

def index (id : PeerId) : Nat := id.toNat

def text (id : PeerId) : String := toString id.toNat

end PeerId

inductive EventKind where
  | nothing
  | connected
  | disconnected
  | received
  | failed
deriving DecidableEq, Repr, Inhabited

inductive Event where
  /-- Nothing happened in the given time. -/
  | nothing
  | connected (peer : PeerId)
  /-- A connection is over; its slot has been freed. -/
  | disconnected (peer : PeerId)
  | received (peer : PeerId) (channel : UInt8) (packet : Packet)
  | failed (cause : IoCause)
deriving DecidableEq, Repr, Inhabited

namespace Event

def kind : Event → EventKind
  | nothing => .nothing
  | connected _ => .connected
  | disconnected _ => .disconnected
  | received .. => .received
  | failed _ => .failed

def peer? : Event → Option PeerId
  | connected peer | disconnected peer | received peer _ _ => some peer
  | nothing | failed _ => none

def channel? : Event → Option UInt8
  | received _ channel _ => some channel
  | _ => none

def packet? : Event → Option Packet
  | received _ _ packet => some packet
  | _ => none

end Event

end ReliableDatagram
