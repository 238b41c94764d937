import ReliableDatagram.Channel
import ReliableDatagram.GroupWindow
import ReliableDatagram.Interceptor
import ReliableDatagram.Negotiation
import ReliableDatagram.Pacing
import ReliableDatagram.Peer.Queue
import ReliableDatagram.Peer.State
import ReliableDatagram.Traffic
import ReliableDatagram.Wire.Header

/-!
# Peers

A peer is one connection as one of its two ends sees it: the state of the handshake,
the channels, the queues of commands to send and to have acknowledged, the estimates
of round trip and loss. It does no input or output of its own. Commands are numbered
as they are queued, each channel with its own counters and the control channel with
one for all.
-/

namespace ReliableDatagram

/-- What a peer needs to know of its host. -/
structure Context where
  now : Stamp
  /-- The bandwidth at which the host can receive; 0 is unlimited. -/
  incomingBandwidth : UInt32
  /-- The bandwidth at which the host can send; 0 is unlimited. -/
  outgoingBandwidth : UInt32
deriving DecidableEq, Repr, Inhabited

inductive PeerEvent where
  /-- The handshake is complete. -/
  | connected
  /-- The other side has confirmed that this one leaves. -/
  | disconnected
deriving DecidableEq, Repr, Inhabited

/-- One connection, as one of its ends sees it. -/
structure Peer where
  /-- The slot of the connection at this end. -/
  id : UInt16
  /-- The slot of the connection at the other end. -/
  remoteId : UInt16
  address : Option Address
  state : PeerState
  /-- The number drawn for the connection by its initiator. -/
  challenge : UInt32
  channels : List Channel
  /-- The largest datagram to send. -/
  mtu : UInt16
  /-- How many bytes of reliable payload may be in flight. -/
  window : UInt32
  /-- The bandwidth at which the other end can receive; 0 is unlimited. -/
  incomingBandwidth : UInt32
  /-- The bandwidth at which the other end can send; 0 is unlimited. -/
  outgoingBandwidth : UInt32
  /-- When the host last found the other end's sending to be below its share. -/
  incomingEpoch : Stamp
  /-- When the host last capped the throttle to what the other end can receive. -/
  outgoingEpoch : Stamp
  /-- Bytes received since the last allocation of bandwidth. -/
  incomingTotal : UInt32
  /-- Bytes queued since the last allocation of bandwidth. -/
  outgoingTotal : UInt32
  /-- When a datagram was last composed. -/
  lastSend : Stamp
  /-- When an acknowledgement was last received. -/
  lastReceive : Stamp
  /-- When the oldest unacknowledged command is due. -/
  nextTimeout : Stamp
  /-- How many bytes of reliable payload are in flight. -/
  inTransit : UInt32
  /-- The last sequence number given to a control command. -/
  controlSequence : UInt32
  groups : GroupWindow
  acknowledgements : List Acknowledgement
  /-- Reliable commands to send, those that timed out included. -/
  reliable : List Outgoing
  /-- Other commands to send. -/
  unreliable : List Outgoing
  /-- Reliable commands sent and not acknowledged. -/
  sent : List Outgoing
  pacing : Pacing
  traffic : Traffic
  lossMeter : LossMeter
  settings : Settings
deriving DecidableEq, Repr

namespace Peer

def vacant (id : UInt16) (settings : Settings) : Peer where
  id := id
  remoteId := unassignedPeer
  address := none
  state := .disconnected
  challenge := 0
  channels := []
  mtu := settings.defaultMtu
  window := settings.window.upper
  incomingBandwidth := 0
  outgoingBandwidth := 0
  incomingEpoch := 0
  outgoingEpoch := 0
  incomingTotal := 0
  outgoingTotal := 0
  lastSend := 0
  lastReceive := 0
  nextTimeout := 0
  inTransit := 0
  controlSequence := 0
  groups := .empty settings.groupWindow
  acknowledgements := []
  reliable := []
  unreliable := []
  sent := []
  pacing := .start settings
  traffic := {}
  lossMeter := {}
  settings := settings

def reset (peer : Peer) : Peer := vacant peer.id peer.settings

/-! ## Views -/

def channel? (peer : Peer) (channel : UInt8) : Option Channel := peer.channels[channel.toNat]?

def setChannel (peer : Peer) (channel : UInt8) (value : Channel) : Peer :=
  { peer with channels := peer.channels.set channel.toNat value }

def hasOutgoing (peer : Peer) : Bool :=
  !peer.acknowledgements.isEmpty || !peer.reliable.isEmpty || !peer.unreliable.isEmpty

/-! ## Queueing -/

/-- Gives a command the numbers that it is to be sent with. Commands on the control channel
share one counter; the others are numbered by their channel, unsequenced ones by their group. -/
def number (peer : Peer) (command : Command) : Command × Peer :=
  if command.channel = controlChannel then
    let sequence := peer.controlSequence + 1
    ({ command with sequence := sequence }, { peer with controlSequence := sequence })
  else if command.requiresAcknowledgement then
    match peer.channel? command.channel with
    | none => (command, peer)
    | some channel =>
      let sequence := channel.outgoingReliable + 1
      ({ command with sequence := sequence },
        peer.setChannel command.channel { channel with outgoingReliable := sequence })
  else if command.isUnsequenced then
    let (group, groups) := peer.groups.next
    let body := match command.body with
      | .sendUnsequenced _ payload => .sendUnsequenced group payload
      | body => body
    ({ command with sequence := 0, body := body }, { peer with groups := groups })
  else
    match peer.channel? command.channel with
    | none => (command, peer)
    | some channel =>
      let sequence := channel.outgoingUnreliable + 1
      let body := match command.body with
        | .sendUnreliable _ payload => .sendUnreliable sequence payload
        | body => body
      ({ command with sequence := channel.outgoingReliable, body := body },
        peer.setChannel command.channel { channel with outgoingUnreliable := sequence })

/-- Numbers a command and puts it behind those that wait to be sent. -/
def queueCommand (peer : Peer) (command : Command) : Peer :=
  let total := peer.outgoingTotal + UInt32.ofNat command.encodedLength
  let (numbered, peer) := { peer with outgoingTotal := total }.number command
  if numbered.requiresAcknowledgement then
    { peer with reliable := peer.reliable ++ [{ command := numbered }] }
  else
    { peer with unreliable := peer.unreliable ++ [{ command := numbered }] }

/-- Queues a reliable command on the control channel. -/
def queueControl (peer : Peer) (body : Body) : Peer :=
  peer.queueCommand (.unnumbered body controlChannel Command.acknowledgeFlag)

/-- The state allows a command of this kind to be acknowledged: a connection that is over or
that this side leaves acknowledges nothing, one that the other side leaves only that. -/
def acknowledges (state : PeerState) (tag : Tag) : Bool :=
  match state with
  | .disconnected | .zombie | .disconnecting => false
  | .acknowledgingDisconnect => tag == .disconnect
  | _ => true

def queueAcknowledgement (peer : Peer) (command : Command) (sentTime : Stamp) : Peer :=
  if acknowledges peer.state command.tag then
    { peer with
      outgoingTotal := peer.outgoingTotal + UInt32.ofNat Tag.acknowledge.headerSize
      acknowledgements := peer.acknowledgements ++ [.ofCommand command sentTime] }
  else
    peer

def clearQueues (peer : Peer) : Peer :=
  { peer with
    acknowledgements := []
    reliable := []
    unreliable := []
    sent := []
    inTransit := 0
    channels := peer.channels.map fun _ ↦ {} }

/-! ## Requests -/

/-- What this end tells the other one of itself in the handshake. -/
def handshake (peer : Peer) (window : UInt32) (channelCount : UInt32) (context : Context) :
    Handshake where
  peer := peer.id
  mtu := peer.mtu
  window := window
  channelCount := channelCount
  incomingBandwidth := context.incomingBandwidth
  outgoingBandwidth := context.outgoingBandwidth
  throttle := peer.pacing.parameters

/-- Begins a connection: opens the channels and asks the other end to do the same. -/
def connect (peer : Peer) (address : Address) (channelCount : Nat) (challenge : UInt32)
    (context : Context) : Except Fault Peer := do
  let count ← peer.settings.clampChannelCount channelCount
  let window ← peer.settings.windowFor context.outgoingBandwidth
  let opened := { peer.reset with
    address := some address
    challenge := challenge
    state := .connecting
    channels := List.replicate count {}
    mtu := peer.settings.defaultMtu
    window := window
    lastReceive := context.now }
  return opened.queueControl
    (.connect (opened.handshake window (UInt32.ofNat count) context))

/-- Queues a ping if the connection stands. -/
def ping (peer : Peer) : Peer :=
  if peer.state = .connected then peer.queueControl .ping else peer

/-- Takes over throttle parameters and has the other end do the same. -/
def configureThrottle (peer : Peer) (parameters : ThrottleParameters) : Peer :=
  { peer with pacing := peer.pacing.configure parameters }.queueControl
    (.throttleConfigure parameters)

/-- Tells the other end at which bandwidth this one receives and sends. -/
def announceBandwidth (peer : Peer) (incoming outgoing : UInt32) : Peer :=
  peer.queueControl (.bandwidthLimit incoming outgoing)

/-- There is a connection that has not begun to leave or ended. -/
def canLeave (peer : Peer) : Bool :=
  match peer.state with
  | .disconnected | .disconnecting | .zombie => false
  | _ => true

/-- Begins to leave. A connection that stands has its departure confirmed; any other is told
once, and the answer says that its slot is then to be freed. -/
def disconnect (peer : Peer) : Bool × Peer :=
  if !peer.canLeave then (false, peer)
  else if peer.state = .connected then
    (false, { peer.clearQueues.queueControl .disconnect with state := .disconnecting })
  else
    (true, peer.clearQueues.queueCommand
      (.unnumbered .disconnect controlChannel Command.unsequencedFlag))

/-- Prepares to leave without waiting for a confirmation; the answer says that there is
something to be sent before the slot is freed. -/
def disconnectNow (peer : Peer) : Bool × Peer :=
  if !peer.canLeave then (false, peer)
  else
    (true, peer.clearQueues.queueCommand
      (.unnumbered .disconnect controlChannel Command.unsequencedFlag))

def receive (peer : Peer) (channel : UInt8) : Option Packet × Peer :=
  match peer.channel? channel with
  | none => (none, peer)
  | some value =>
    let (packet, value) := value.receive
    (packet, peer.setChannel channel value)

/-- Delivers the next packet of the first of some channels that has one, with the number of
that channel, the channels being numbered from `first`. -/
def receiveFrom (first : Nat) : List Channel → Option (UInt8 × Packet) × List Channel
  | [] => (none, [])
  | channel :: rest =>
    match channel.receive with
    | (some packet, channel) => (some (UInt8.ofNat first, packet), channel :: rest)
    | (none, channel) =>
      let (found, rest) := receiveFrom (first + 1) rest
      (found, channel :: rest)

def receiveAny (peer : Peer) : Option (UInt8 × Packet) × Peer :=
  let (found, channels) := receiveFrom 0 peer.channels
  (found, { peer with channels := channels })

/-! ## Bookkeeping for the host -/

def recordReceived (peer : Peer) (length : Nat) : Peer :=
  { peer with
    incomingTotal := peer.incomingTotal + UInt32.ofNat length
    traffic := peer.traffic.recordReceived length }

def resetTotals (peer : Peer) : Peer := { peer with incomingTotal := 0, outgoingTotal := 0 }

/-- Moves the other end to another address. -/
def relocate (peer : Peer) (address : Address) : Peer := { peer with address := some address }

/-- Ends the connection; its end is still to be reported. -/
def abandon (peer : Peer) : Peer := { peer with state := .zombie }

/-- Notes when the bandwidth toward and from the other end was last settled. -/
def markEpochs (peer : Peer) (incoming outgoing : Stamp) : Peer :=
  { peer with incomingEpoch := incoming, outgoingEpoch := outgoing }

def setThrottleLimit (peer : Peer) (limit : UInt32) : Peer :=
  { peer with pacing := peer.pacing.setLimit limit }

end Peer

end ReliableDatagram
