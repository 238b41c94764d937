import ReliableDatagram.Error
import ReliableDatagram.Interceptor
import ReliableDatagram.Stamp

/-!
# The surroundings of a host

Everything that a host meets outside of itself: the passing of time, the socket, and
an interceptor. The surroundings have a state that the host cannot see; each thing
the host does with them takes that state to the next. Nothing is assumed about them,
so what is proved of a host holds for every socket, network and clock.
-/

namespace ReliableDatagram

/-- The surroundings of a host, with states of type `σ`. -/
structure Environment (σ : Type) extends Interceptor σ where
  /-- The milliseconds since the host was created. -/
  elapsed : σ → Nat × σ
  send : Address → Bytes → σ → Except IoFailure Unit × σ
  /-- Takes the next datagram that has arrived, if any, with where it came from. -/
  receive : σ → Except IoFailure (Option (Bytes × Address)) × σ
  /-- Waits up to so many milliseconds for a datagram, and says whether one is there. -/
  wait : UInt32 → σ → Except IoFailure Bool × σ
  localAddress : σ → Except IoFailure Address × σ

/-- The stamp of a moment. Stamps begin at 1, since 0 stands for an interval that has not
begun. -/
def Stamp.ofElapsed (milliseconds : Nat) : Stamp := UInt32.ofNat (milliseconds + 1)

end ReliableDatagram
