import ReliableDatagram.Proofs.Peer.Reception
import Mathlib.Logic.Relation

/-!
# Connections

A connection is two peers and a network between them that loses, repeats and reorders
datagrams as it likes. Either end submits packets, composes datagrams, takes in datagrams
that the other end composed at any earlier time, and delivers packets. Beside its peer an
end keeps the history that the properties of the connection speak of; no step depends on it.
-/

namespace ReliableDatagram

structure End where
  peer : Peer
  /-- The packets that were submitted, in order. -/
  submitted : List Submission := []
  composed : List Bytes := []
  /-- The packets that were delivered, in order, each with its channel. -/
  taken : List (UInt8 × Packet) := []

namespace End

def log (e : End) (channel : UInt8) : List Submission :=
  e.submitted.filter (·.channel == channel)

def delivered (e : End) (channel : UInt8) : List Packet :=
  (e.taken.filter (·.1 == channel)).map (·.2)

/-- A channel; one that does not exist is fresh. -/
def channel (e : End) (channel : UInt8) : Channel := (e.peer.channel? channel).getD {}

/-! ## What an end does -/

/-- The record of a packet that is submitted when the peer becomes `after` by it. -/
def submission (e : End) (channel : UInt8) (packet : Packet) (after : Peer) : Submission where
  channel := channel
  packet := packet
  fragmentLength := e.peer.fragmentLength
  commands := (after.reliable.drop e.peer.reliable.length).map (·.command)

def submit (e : End) (channel : UInt8) (packet : Packet) (after : Peer) : End :=
  { e with peer := after, submitted := e.submitted ++ [e.submission channel packet after] }

def compose (e : End) (now : Stamp) (check : Bool) : End :=
  match e.peer.compose now check with
  | (.ok (.datagram bytes), peer) => { e with peer := peer, composed := e.composed ++ [bytes] }
  | (_, peer) => { e with peer := peer }

def receive (e : End) (channel : UInt8) : End :=
  match e.peer.receive channel with
  | (some packet, peer) => { e with peer := peer, taken := e.taken ++ [(channel, packet)] }
  | (none, peer) => { e with peer := peer }

end End

/-- The peer handles some commands of a datagram one after the other, each at a time of its
own. -/
inductive Peer.HandlesAll (header : Header) : List Command → Peer → Peer → Prop where
  | nil {peer : Peer} : HandlesAll header [] peer peer
  | cons {command : Command} {rest : List Command} {peer middle after : Peer}
      {event : Option PeerEvent} {context : Context}
      (hhandle : peer.handle header command context = .ok (event, middle))
      (hrest : HandlesAll header rest middle after) :
      HandlesAll header (command :: rest) peer after

/-- What one end can do, when these datagrams can reach it, with or without trailers. -/
inductive End.Step (checksums : Bool) (incoming : List Bytes) : End → End → Prop where
  | submit {e : End} {channel : UInt8} {packet : Packet} {after : Peer}
      (hsend : e.peer.send channel packet = .ok after) :
      Step checksums incoming e (e.submit channel packet after)
  | compose {e : End} {now : Stamp} {check : Bool} :
      Step checksums incoming e (e.compose now check)
  /-- A datagram arrives, be it for the first time or again. -/
  | arrive {e : End} {datagram : Bytes} {header : Header} {commands : List Command} {after : Peer}
      (hdatagram : datagram ∈ incoming) (hreads : Datagram.Reads checksums datagram header commands)
      (hhandles : Peer.HandlesAll header commands e.peer after) :
      Step checksums incoming e { e with peer := after }
  | receive {e : End} {channel : UInt8} : Step checksums incoming e (e.receive channel)

structure Connection where
  near : End
  far : End

namespace Connection

/-- The connection as it looks from the other end. -/
def swap (connection : Connection) : Connection := ⟨connection.far, connection.near⟩

/-- What can happen in a connection: either end does something, and what the other one has
composed can reach it. -/
inductive Step : Connection → Connection → Prop where
  | near {near far after : End}
      (hstep : End.Step far.peer.settings.checksums far.composed near after) :
      Step ⟨near, far⟩ ⟨after, far⟩
  | far {near far after : End}
      (hstep : End.Step near.peer.settings.checksums near.composed far after) :
      Step ⟨near, far⟩ ⟨near, after⟩

/-- A connection as it begins: one end has asked for it, alone so far, and the other one
grants it upon a request that a datagram of the first one carries. -/
inductive Opens : Connection → Prop where
  /-- This end asks, and the other one grants. -/
  | intro {slot peer : Peer} {address : Address} {channelCount : Nat} {challenge : UInt32}
      {context : Context} {near : End} {other granted : Peer} {datagram : Bytes} {header : Header}
      {commands : List Command} {command : Command} {offer : Handshake} {source : Address}
      {moment : Context}
      (hconnect : slot.connect address channelCount challenge context = .ok peer)
      (halone : Relation.ReflTransGen (End.Step false []) { peer := peer } near)
      (hdatagram : datagram ∈ near.composed)
      (hreads : Datagram.Reads near.peer.settings.checksums datagram header commands)
      (hcommand : command ∈ commands) (hbody : command.body = .connect offer)
      (haccept : other.accept source header command offer moment = .ok granted) :
      Opens ⟨near, { peer := granted }⟩

/-- The connections that can arise; this end may have asked for the connection or granted it. -/
inductive Reachable : Connection → Prop where
  /-- This end has asked for the connection. -/
  | asked {connection : Connection} (h : Opens connection) : Reachable connection
  /-- This end has granted the connection. -/
  | granted {connection : Connection} (h : Opens connection) : Reachable connection.swap
  | step {connection after : Connection} (h : Reachable connection)
      (hstep : Step connection after) : Reachable after

end Connection

end ReliableDatagram
