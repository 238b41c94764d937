import ReliableDatagram.Error
import ReliableDatagram.Peer.Basic

/-!
# Submitting packets

A packet that fits a datagram becomes one command. A larger one is cut into pieces of
equal length, the last one possibly shorter, and each becomes a fragment that is sent
reliably, whatever the flags of the packet say.
-/

namespace ReliableDatagram

namespace Bytes

/-- `bytes` cut into pieces of `size` bytes, the last one possibly shorter. A size of 0 is
treated as 1. -/
def chunks (size : Nat) : Bytes → List Bytes
  | [] => []
  | byte :: rest => (byte :: rest.take (size - 1)) :: chunks size (rest.drop (size - 1))
termination_by bytes => bytes.length
decreasing_by simp only [List.length_drop, List.length_cons]; omega

end Bytes

namespace Fragment

/-- The fragments of a packet that these pieces are the rest of: the pieces are numbered from
`number`, and the first of them belongs at `offset`. -/
def ofPieces (start count total : UInt32) (number offset : Nat) : List Bytes → List Fragment
  | [] => []
  | piece :: rest =>
    { start := start
      count := count
      number := UInt32.ofNat number
      total := total
      offset := UInt32.ofNat offset
      payload := piece } :: ofPieces start count total (number + 1) (offset + piece.length) rest

/-- The fragments of a packet whose first sequence number is `start`. -/
def ofPayload (start : UInt32) (size : Nat) (payload : Bytes) : List Fragment :=
  ofPieces start (UInt32.ofNat ((payload.length + size - 1) / size))
    (UInt32.ofNat payload.length) 0 0 (payload.chunks size)

end Fragment

namespace Peer

/-- The payload bytes of a fragment that fills a datagram. -/
def fragmentLength (peer : Peer) : Nat :=
  let trailer := if peer.settings.checksums then 4 else 0
  max 1 (peer.mtu.toNat - (Header.size + Tag.sendFragment.headerSize + trailer))

def wholeCommand (channel : UInt8) (packet : Packet) : Command :=
  if packet.isReliable then
    .unnumbered (.sendReliable packet.payload) channel Command.acknowledgeFlag
  else if packet.isUnsequenced then
    .unnumbered (.sendUnsequenced 0 packet.payload) channel Command.unsequencedFlag
  else
    .unnumbered (.sendUnreliable 0 packet.payload) channel 0

def queueFragments (peer : Peer) (channel : UInt8) (fragments : List Fragment) : Peer :=
  fragments.foldl (fun peer fragment ↦
    peer.queueCommand (.unnumbered (.sendFragment fragment) channel Command.acknowledgeFlag)) peer

def send (peer : Peer) (channel : UInt8) (packet : Packet) : Except TransportError Peer :=
  if peer.state ≠ .connected then .error .notConnected
  else
    match peer.channel? channel with
    | none => .error (.invalidChannel channel)
    | some value =>
      if peer.settings.packetSizeLimit < packet.size ∨ Word.maximum < packet.size then
        .error (.packetTooLarge packet.size peer.settings.packetSizeLimit)
      else if peer.fragmentLength < packet.size then
        .ok (peer.queueFragments channel
          (Fragment.ofPayload (value.outgoingReliable + 1) peer.fragmentLength packet.payload))
      else
        .ok (peer.queueCommand (wholeCommand channel packet))

end Peer

end ReliableDatagram
