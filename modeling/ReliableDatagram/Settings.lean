import ReliableDatagram.Fault

/-!
# Settings

The tunable numbers of the transport. Each host and each of its peers work with
one set of settings; the two ends of a connection need not agree on them.
-/

namespace ReliableDatagram

/-- How the throttle on unreliable traffic follows the measured round trips. -/
structure ThrottleParameters where
  /-- Milliseconds over which the reference round trip is measured. -/
  interval : UInt32
  /-- How far one fast round trip opens the throttle. -/
  acceleration : UInt32
  /-- How far one slow round trip closes the throttle. -/
  deceleration : UInt32
deriving DecidableEq, Repr, Inhabited

structure Settings where
  /-- How many channels a connection may have. -/
  channelCount : Bounds Nat := ⟨1, 255⟩
  /-- How large the datagrams of a connection may be negotiated to be. -/
  mtu : Bounds UInt16 := ⟨576, 4096⟩
  /-- The datagram size that an initiator offers. -/
  defaultMtu : UInt16 := 1400
  /-- How many bytes of reliable payload may be in flight. -/
  window : Bounds UInt32 := ⟨4096, 32768⟩
  /-- The bandwidth, in bytes per second, that buys one minimum window. -/
  windowScale : UInt32 := 65536
  /-- How many commands one datagram may carry. -/
  commandsPerDatagram : Nat := 32
  /-- How many buffers one datagram may be gathered from. -/
  buffersPerDatagram : Nat := 65
  /-- Milliseconds of silence after which an idle connection is pinged. -/
  pingInterval : UInt32 := 500
  /-- The retransmission timeout may grow to this multiple of its first value. -/
  timeoutLimit : UInt32 := 32
  /-- The throttle value at which all unreliable traffic passes. -/
  throttleScale : UInt32 := 32
  /-- How far the throttle counter advances per unreliable command. -/
  throttleStep : UInt32 := 7
  /-- The throttle parameters that a fresh connection starts with. -/
  throttle : ThrottleParameters := ⟨5000, 2, 2⟩
  /-- The throttle value that a fresh connection starts with. -/
  initialThrottle : UInt32 := 32
  /-- The round trip estimate, in milliseconds, that a fresh connection starts with. -/
  initialRoundTrip : UInt32 := 500
  /-- The fixed-point value that stands for losing everything. -/
  lossScale : UInt32 := 65536
  /-- Milliseconds between two samples of the loss estimate. -/
  lossInterval : UInt32 := 10000
  /-- How many unsequenced groups the duplicate window spans. -/
  groupWindow : UInt32 := 1024
  /-- Milliseconds between two allocations of the host's bandwidth. -/
  allocationInterval : UInt32 := 1000
  /-- The largest packet, in bytes, that is sent or reassembled. -/
  packetSizeLimit : Nat := 33554432
  /-- Whether datagrams carry a checksum trailer. -/
  checksums : Bool := false
deriving DecidableEq, Repr

instance : Inhabited Settings := ⟨{}⟩

namespace Settings

/-- The number of channels opened when `count` are asked for. -/
def clampChannelCount (settings : Settings) (count : Nat) : Except Fault Nat :=
  settings.channelCount.clamp count

def acceptsChannelCount (settings : Settings) (count : Nat) : Bool :=
  settings.channelCount.contains count

end Settings

end ReliableDatagram
