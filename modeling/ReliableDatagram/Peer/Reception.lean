import ReliableDatagram.Peer.Composition

/-!
# Handling received commands

What a command does depends on where the connection stands. Accepted commands that ask
for it are acknowledged, even if they are repetitions; refused ones are not, so that
their sender tries again. Data is refused until the handshake is complete.
-/

namespace ReliableDatagram

structure Handled where
  /-- What the application is to be told. -/
  event : Option PeerEvent := none
  /-- The command may be acknowledged. -/
  accepted : Bool
  peer : Peer

namespace Peer

/-! ## Handshake, responding side -/

/-- Grants a connection that a received command asks for. -/
def accept (peer : Peer) (address : Address) (header : Header) (command : Command)
    (offer : Handshake) (context : Context) : Except Fault Peer := do
  let mtu ← peer.settings.clampMtu offer.mtu
  let window ← peer.settings.peerWindow offer.incomingBandwidth context.outgoingBandwidth
  let answered ← peer.settings.windowFor context.incomingBandwidth
  let fresh := peer.reset
  let opened := { fresh with
    state := .acknowledgingConnect
    challenge := header.challenge
    address := some address
    remoteId := offer.peer
    incomingBandwidth := offer.incomingBandwidth
    outgoingBandwidth := offer.outgoingBandwidth
    pacing := fresh.pacing.configure offer.throttle
    channels := List.replicate offer.channelCount.toNat {}
    mtu := mtu
    window := window
    lastReceive := context.now }
  let replied := opened.queueControl
    (.verifyConnect (opened.handshake answered offer.channelCount context))
  return replied.queueAcknowledgement command header.sentTime

/-! ## Acknowledgements -/

/-- Takes the command that an acknowledgement names out of those that await it, or out of
those that wait to be sent again, and tells its kind. -/
def removeSent (peer : Peer) (sequence : UInt32) (channel : UInt8) : Option Tag × Peer :=
  match peer.sent.find? (·.isNamed sequence channel) with
  | some outgoing =>
    (some outgoing.command.tag, refreshTimeout { peer with
      sent := peer.sent.eraseP (·.isNamed sequence channel)
      inTransit := Word.subSat peer.inTransit outgoing.payloadLength })
  | none =>
    let isAwaited (outgoing : Outgoing) : Bool :=
      outgoing.timeout != 0 && outgoing.isNamed sequence channel
    match peer.reliable.find? isAwaited with
    | some outgoing =>
      (some outgoing.command.tag, { peer with reliable := peer.reliable.eraseP isAwaited })
    | none => (none, peer)

/-- Handles an acknowledgement: it is a sample of the round trip, and may complete the
handshake of the responding side or the departure of this one. -/
def handleAcknowledge (peer : Peer) (channel : UInt8) (sequence : UInt32) (sentTime : Stamp)
    (context : Context) : Option PeerEvent × Peer :=
  if Stamp.before context.now sentTime then (none, peer)
  else
    let pacing := peer.pacing.recordRoundTrip context.now (Stamp.distance context.now sentTime)
    let (removed, peer) :=
      { peer with lastReceive := context.now, pacing := pacing }.removeSent sequence channel
    match peer.state, removed with
    | .acknowledgingConnect, some .verifyConnect =>
      (some .connected, { peer with state := .connected })
    | .disconnecting, some .disconnect => (some .disconnected, peer.reset)
    | _, _ => (none, peer)

/-! ## Handshake, initiating side -/

/-- Takes the pending request for the connection out of the queues. -/
def removeConnect (peer : Peer) : Peer :=
  let peer :=
    match peer.sent.find? (·.command.tag == .connect) with
    | some outgoing => (peer.removeSent outgoing.command.sequence controlChannel).2
    | none => peer
  { peer with reliable := peer.reliable.filter (·.command.tag != .connect) }

/-- The answer has the channels and the throttle parameters of this side. -/
def agreesWith (peer : Peer) (answer : Handshake) : Bool :=
  answer.channelCount.toNat == peer.channels.length && answer.throttle == peer.pacing.parameters

def handleVerifyConnect (peer : Peer) (answer : Handshake) : Except Fault Handled := do
  if peer.state ≠ .connecting then return { accepted := true, peer := peer }
  if !peer.agreesWith answer then
    return { accepted := false, peer := { peer with state := .zombie } }
  let mtu ← peer.settings.clampMtu answer.mtu
  let window ← peer.settings.clampWindow answer.window
  let removed := peer.removeConnect
  return {
    event := some .connected
    accepted := true
    peer := { removed with
      remoteId := answer.peer
      mtu := min mtu removed.mtu
      window := min window removed.window
      incomingBandwidth := answer.incomingBandwidth
      outgoingBandwidth := answer.outgoingBandwidth
      state := .connected } }

/-! ## Departure -/

def handleDisconnect (peer : Peer) (confirm : Bool) : Peer :=
  match peer.state with
  | .zombie | .acknowledgingDisconnect => peer
  | .disconnecting => { peer.clearQueues with state := .zombie }
  | .connected =>
    { peer.clearQueues with state := if confirm then .acknowledgingDisconnect else .zombie }
  | _ => peer.reset

/-! ## Data -/

/-- The channel that data may arrive on. -/
def dataChannel? (peer : Peer) (channel : UInt8) : Option Channel :=
  if peer.state = .connected then peer.channel? channel else none

/-- A fragment lies inside its packet, and the packet is not too large. -/
def acceptsFragment (peer : Peer) (fragment : Fragment) : Bool :=
  decide (fragment.offset < fragment.total) &&
    decide (fragment.offset.toNat + fragment.payload.length ≤ fragment.total.toNat) &&
    decide (fragment.number < fragment.count) &&
    decide (fragment.total.toNat ≤ peer.settings.packetSizeLimit) &&
    decide (fragment.count ≤ fragment.total)

def handleUnsequenced (peer : Peer) (channel : UInt8) (group : UInt32) (payload : Bytes) :
    Handled :=
  match peer.dataChannel? channel with
  | none => { accepted := false, peer := peer }
  | some value =>
    let (isNew, groups) := peer.groups.accept group
    let peer := { peer with groups := groups }
    { accepted := true
      peer :=
        if isNew then
          peer.setChannel channel (value.queueUnsequenced ⟨0, 0, .packet ⟨payload, .unsequenced⟩⟩)
        else peer }

def handleFragment (peer : Peer) (channel : UInt8) (fragment : Fragment) : Handled :=
  match peer.dataChannel? channel with
  | none => { accepted := false, peer := peer }
  | some value =>
    if peer.acceptsFragment fragment then
      { accepted := true, peer := peer.setChannel channel (value.addFragment fragment) }
    else
      { accepted := false, peer := peer }

/-! ## All commands -/

def perform (peer : Peer) (command : Command) (context : Context) : Except Fault Handled :=
  match command.body with
  | .idle | .ping => .ok { accepted := true, peer := peer }
  | .acknowledge sequence sentTime =>
    let (event, peer) := peer.handleAcknowledge command.channel sequence sentTime context
    .ok { event := event, accepted := true, peer := peer }
  | .connect _ => .ok { accepted := false, peer := peer }
  | .verifyConnect answer => peer.handleVerifyConnect answer
  | .disconnect =>
    .ok { accepted := true, peer := peer.handleDisconnect command.requiresAcknowledgement }
  | .sendReliable payload =>
    match peer.dataChannel? command.channel with
    | none => .ok { accepted := false, peer := peer }
    | some channel =>
      let arrival := ⟨command.sequence, 0, .packet ⟨payload, .reliable⟩⟩
      let (_, channel) := channel.queueReliable arrival
      .ok { accepted := true, peer := peer.setChannel command.channel channel }
  | .sendUnreliable sequence payload =>
    match peer.dataChannel? command.channel with
    | none => .ok { accepted := false, peer := peer }
    | some channel =>
      let arrival := ⟨command.sequence, sequence, .packet ⟨payload, .plain⟩⟩
      let (_, channel) := channel.queueUnreliable arrival
      .ok { accepted := true, peer := peer.setChannel command.channel channel }
  | .sendUnsequenced group payload => .ok (peer.handleUnsequenced command.channel group payload)
  | .sendFragment fragment => .ok (peer.handleFragment command.channel fragment)
  | .bandwidthLimit incoming outgoing => do
    let window ← peer.settings.peerWindow incoming context.outgoingBandwidth
    return {
      accepted := true
      peer := { peer with
        incomingBandwidth := incoming
        outgoingBandwidth := outgoing
        window := window } }
  | .throttleConfigure parameters =>
    .ok { accepted := true, peer := { peer with pacing := peer.pacing.configure parameters } }

def handle (peer : Peer) (header : Header) (command : Command) (context : Context) :
    Except Fault (Option PeerEvent × Peer) := do
  let handled ← peer.perform command context
  if handled.accepted && command.requiresAcknowledgement then
    return (handled.event, handled.peer.queueAcknowledgement command header.sentTime)
  else
    return (handled.event, handled.peer)

end Peer

end ReliableDatagram
