import ReliableDatagram.Bytes

/-!
# Interception of datagrams

An interceptor sees every datagram that a host sends or receives, before anything
else looks at it, and may alter or drop it. `transparent` leaves all datagrams
alone; `lossy` drops each one independently with a fixed rate, drawing its chances
from a supplied sequence of numbers in `[0, 1)`.
-/

namespace ReliableDatagram

structure Address where
  /-- The canonical text of the network address. -/
  host : String
  /-- The number that tells the sockets of one network address apart. -/
  portNumber : UInt16
deriving DecidableEq, Repr, Inhabited

namespace Address

def text (address : Address) : String := address.host ++ ":" ++ toString address.portNumber.toNat

end Address

/-- A filter with state of type `σ` on both directions of traffic; `none` drops the datagram. -/
structure Interceptor (σ : Type) where
  /-- What becomes of a datagram on its way to an address. -/
  onSend : Address → Bytes → σ → Option Bytes × σ
  /-- What becomes of a datagram that came from an address. -/
  onReceive : Address → Bytes → σ → Option Bytes × σ

namespace Interceptor

def transparent {σ : Type} : Interceptor σ where
  onSend _ datagram state := (some datagram, state)
  onReceive _ datagram state := (some datagram, state)

end Interceptor

/-- The state of an interceptor that loses datagrams at random. -/
structure LossyLink where
  /-- The chance, from 0 to 1, that a datagram is dropped. -/
  rate : Float
  /-- The sequence of chances, each in `[0, 1)`. -/
  chance : Nat → Float
  seen : Nat := 0
  dropped : Nat := 0

namespace LossyLink

/-- A lossy link; a rate outside of 0 to 1 is moved to the nearer end. -/
def ofRate (rate : Float) (chance : Nat → Float) : LossyLink where
  rate := if rate < 0 then 0 else if 1 < rate then 1 else rate
  chance := chance

/-- Decides over one datagram, the same way in both directions. -/
def pass (datagram : Bytes) (link : LossyLink) : Option Bytes × LossyLink :=
  if link.chance link.seen < link.rate then
    (none, { link with seen := link.seen + 1, dropped := link.dropped + 1 })
  else
    (some datagram, { link with seen := link.seen + 1 })

def interceptor : Interceptor LossyLink where
  onSend _ := pass
  onReceive _ := pass

end LossyLink

end ReliableDatagram
