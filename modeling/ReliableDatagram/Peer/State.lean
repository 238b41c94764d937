/-!
# States of a connection

The states that a connection goes through, in the order in which they are listed:
from nothing through the handshake to connected, and through leaving to a zombie
that only waits for its end to be reported.
-/

namespace ReliableDatagram

inductive PeerState where
  | disconnected
  | connecting
  /-- A connection was granted, and the initiator has not confirmed it. -/
  | acknowledgingConnect
  | connected
  /-- This side leaves, and the other one has not confirmed it. -/
  | disconnecting
  /-- The other side leaves, and the confirmation has not been sent. -/
  | acknowledgingDisconnect
  /-- The connection is over, and the application has not been told. -/
  | zombie
deriving DecidableEq, Repr, Inhabited

namespace PeerState

def all : List PeerState :=
  [disconnected, connecting, acknowledgingConnect, connected, disconnecting,
    acknowledgingDisconnect, zombie]

/-- Data may flow. -/
def isConnected (state : PeerState) : Bool := state == connected

/-- The handshake is under way. -/
def isHandshaking (state : PeerState) : Bool :=
  state == connecting || state == acknowledgingConnect

/-- The connection still sends and receives. -/
def isActive (state : PeerState) : Bool := state != disconnected && state != zombie

end PeerState

end ReliableDatagram
