import ReliableDatagram.Host.Allocation
import ReliableDatagram.Host.Environment
import ReliableDatagram.Host.Mailbox
import ReliableDatagram.Peer.Reception
import ReliableDatagram.Peer.Submission

/-!
# Hosts

A host keeps many connections on one socket. This module holds its state and those of
its operations that change nothing but that state; the operations that also touch the
surroundings act on a `LiveHost`, a host together with the state of its surroundings.
-/

namespace ReliableDatagram

structure Host where
  settings : Settings
  table : SlotTable
  /-- The bandwidth at which the host can receive; 0 is unlimited. -/
  incomingBandwidth : UInt32
  /-- The bandwidth at which the host can send; 0 is unlimited. -/
  outgoingBandwidth : UInt32
  allocator : Allocator := {}
  /-- The slot at which the search for the next event begins. -/
  cursor : Nat := 0
  /-- Events that have not been reported, oldest first. -/
  pending : List Event := []
  mailbox : Mailbox := {}
deriving Repr

namespace Host

def create (capacity : Nat) (incoming outgoing : UInt32) (settings : Settings) : Host where
  settings := settings
  table := .empty capacity settings
  incomingBandwidth := incoming
  outgoingBandwidth := outgoing

/-! ## Connections -/

def peer? (host : Host) (id : PeerId) : Option Peer := host.table.get? id

/-- The connection in a slot, or why there is none. -/
def peer (host : Host) (id : PeerId) : Except TransportError Peer :=
  match host.peer? id with
  | none => .error (.unknownPeer id)
  | some peer => .ok peer

def setPeer (host : Host) (id : PeerId) (peer : Peer) : Host :=
  { host with table := host.table.set id peer }

def release (host : Host) (id : PeerId) : Host :=
  { host with table := host.table.release id }

def context (host : Host) (now : Stamp) : Context :=
  ⟨now, host.incomingBandwidth, host.outgoingBandwidth⟩

/-! ## Events -/

def pushEvent (host : Host) (event : Event) : Host :=
  { host with pending := host.pending ++ [event] }

def popEvent (host : Host) : Option Event × Host :=
  match host.pending with
  | [] => (none, host)
  | event :: rest => (some event, { host with pending := rest })

def requestRecalculation (host : Host) : Host :=
  { host with allocator := host.allocator.requestRecalculation }

/-- Reports the end of a connection that was in a given state. The application never heard
of a connection that was only being granted; only one that went further took a share of
the bandwidth. -/
def reportDeparture (host : Host) (id : PeerId) (state : PeerState) : Host :=
  match state with
  | .acknowledgingConnect => host
  | .connecting => host.pushEvent (.disconnected id)
  | _ => host.requestRecalculation.pushEvent (.disconnected id)

/-! ## Requests that change nothing outside -/

def updatePeer (host : Host) (id : PeerId) (change : Peer → Peer) : Except TransportError Host := do
  let peer ← host.peer id
  return host.setPeer id (change peer)

def send (host : Host) (id : PeerId) (channel : UInt8) (packet : Packet) :
    Except TransportError Host := do
  let peer ← host.peer id
  return host.setPeer id (← peer.send channel packet)

def receive (host : Host) (id : PeerId) (channel : UInt8) :
    Except TransportError (Option Packet × Host) := do
  let peer ← host.peer id
  let (packet, peer) := peer.receive channel
  return (packet, host.setPeer id peer)

/-- Sends a packet to the peer in a slot if it is connected, and counts it then. -/
def broadcastTo (channel : UInt8) (packet : Packet) (count : Nat) (peer : Peer) : Nat × Peer :=
  if peer.state = .connected then
    match peer.send channel packet with
    | .ok peer => (count + 1, peer)
    | .error _ => (count, peer)
  else
    (count, peer)

/-- Sends a packet to every connected peer that has the channel, and says to how many. -/
def broadcast (host : Host) (channel : UInt8) (packet : Packet) : Nat × Host :=
  let (count, slots) :=
    Allocator.sweep (broadcastTo channel packet) 0 host.table.slots.toList
  (count, { host with table := { host.table with slots := slots.toArray } })

/-- Forgets a connection without telling the other end. -/
def resetPeer (host : Host) (id : PeerId) : Except TransportError Host := do
  let _ ← host.peer id
  return host.release id

def ping (host : Host) (id : PeerId) : Except TransportError Host := host.updatePeer id Peer.ping

/-- Sets the throttle parameters of a connection, at both ends. -/
def configureThrottle (host : Host) (id : PeerId) (parameters : ThrottleParameters) :
    Except TransportError Host :=
  host.updatePeer id (·.configureThrottle parameters)

def limitBandwidth (host : Host) (incoming outgoing : UInt32) : Host :=
  { host with
    incomingBandwidth := incoming, outgoingBandwidth := outgoing }.requestRecalculation

/-- Leaves a request for the host, to be carried out when it next serves or flushes. -/
def submit (host : Host) (request : Request) : Except TransportError Host := do
  return { host with mailbox := ← host.mailbox.push request }

def allocateBandwidth (host : Host) (now : Stamp) : Host :=
  if host.allocator.isDue now host.settings.allocationInterval then
    let (allocator, table) :=
      host.allocator.run (host.context now) host.settings.throttleScale host.table
    { host with allocator := allocator, table := table }
  else
    host

/-! ## The next event -/

/-- Looks for an event in the given slots: a zombie to be reported and freed, or a packet to
be delivered. The next search begins behind the slot that had one. -/
def dispatchFrom (host : Host) : List Nat → Option Event × Host
  | [] => (none, host)
  | index :: rest =>
    let id := UInt16.ofNat index
    match host.peer? id with
    | none => host.dispatchFrom rest
    | some peer =>
      match peer.state with
      | .zombie =>
        (some (.disconnected id),
          { (host.release id).requestRecalculation with cursor := index + 1 })
      | .connected =>
        match peer.receiveAny with
        | (some (channel, packet), peer) =>
          (some (.received id channel packet), { host.setPeer id peer with cursor := index + 1 })
        | (none, peer) => (host.setPeer id peer).dispatchFrom rest
      | _ => host.dispatchFrom rest

/-- All slots in order, beginning at the cursor and going around. -/
def searchOrder (host : Host) : List Nat :=
  (List.range host.table.capacity).map fun offset ↦ (host.cursor + offset) % host.table.capacity

/-- Takes the next event that can be reported without looking at the socket. -/
def dispatch (host : Host) : Option Event × Host :=
  match host.popEvent with
  | (some event, host) => (some event, host)
  | (none, host) => host.dispatchFrom host.searchOrder

end Host

structure LiveHost (σ : Type) where
  host : Host
  world : σ

namespace LiveHost

variable {σ : Type} (env : Environment σ)

def mapHost (live : LiveHost σ) (change : Host → Host) : LiveHost σ :=
  { live with host := change live.host }

def now (live : LiveHost σ) : Stamp × LiveHost σ :=
  let (elapsed, world) := env.elapsed live.world
  (Stamp.ofElapsed elapsed, { live with world := world })

def localAddress (live : LiveHost σ) : Except TransportError Address × LiveHost σ :=
  match env.localAddress live.world with
  | (.ok address, world) => (.ok address, { live with world := world })
  | (.error failure, world) => (.error (.io failure), { live with world := world })

/-- Begins a connection under a challenge that was drawn for it. -/
def connect (live : LiveHost σ) (address : Address) (channelCount : Nat) (challenge : UInt32) :
    Except Fault (Except TransportError PeerId × LiveHost σ) := do
  let count ← live.host.settings.clampChannelCount channelCount
  let (now, live) := live.now env
  match live.host.table.allocate with
  | none => return (.error .hostFull, live)
  | some (id, peer, table) =>
    let peer ← peer.connect address count challenge (live.host.context now)
    return (.ok id, { live with host := { live.host with table := table.set id peer } })

end LiveHost

end ReliableDatagram
