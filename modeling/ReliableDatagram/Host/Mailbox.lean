import ReliableDatagram.Error
import ReliableDatagram.Host.Event

/-!
# Requests from elsewhere

A host works on its own; others hand it requests through a mailbox, which the host
empties when it next serves or flushes. The mailbox outlives its host, and then
refuses all requests.
-/

namespace ReliableDatagram

inductive Request where
  | send (peer : PeerId) (channel : UInt8) (packet : Packet)
  | broadcast (channel : UInt8) (packet : Packet)
  | disconnect (peer : PeerId)
deriving DecidableEq, Repr, Inhabited

structure Mailbox where
  closed : Bool := false
  /-- The requests, oldest first. -/
  requests : List Request := []
deriving DecidableEq, Repr, Inhabited

namespace Mailbox

def push (mailbox : Mailbox) (request : Request) : Except TransportError Mailbox :=
  if mailbox.closed then .error .hostClosed
  else .ok { mailbox with requests := mailbox.requests ++ [request] }

/-- What is left of a mailbox when its host goes. -/
def close (_mailbox : Mailbox) : Mailbox := ⟨true, []⟩

end Mailbox

end ReliableDatagram
