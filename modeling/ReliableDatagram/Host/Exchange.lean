import ReliableDatagram.Host.Basic
import ReliableDatagram.Wire.Decoding

/-!
# Exchange with the network

Sending goes through the slots in order, one datagram from each, and starts over until
no slot has anything to send. Receiving hands each datagram to the connection that its
header names, if it comes from the right place under the right challenge, or has its
first command open a connection. The rest of a datagram is dropped from the first
malformed command on, and once its connection is over.
-/

namespace ReliableDatagram

namespace LiveHost

variable {σ : Type} (env : Environment σ)

/-! ## Sending -/

/-- Puts a datagram on its way. A failure of the socket is reported. -/
def transmit (live : LiveHost σ) (address : Address) (datagram : Bytes) : LiveHost σ :=
  match env.onSend address datagram live.world with
  | (none, world) => { live with world := world }
  | (some datagram, world) =>
    match env.send address datagram world with
    | (.ok (), world) => { live with world := world }
    | (.error failure, world) => ⟨live.host.pushEvent (.failed failure.cause), world⟩

/-- Sends one datagram of the connection in a slot and says whether there was one. A
connection that is given up is freed and reported. -/
def sendFrom (now : Stamp) (checkTimeouts : Bool) (id : PeerId) (live : LiveHost σ) :
    Bool × LiveHost σ :=
  match live.host.peer? id with
  | none => (false, live)
  | some peer =>
    match peer.address with
    | none => (false, live)
    | some address =>
      if peer.state.isActive then
        match peer.compose now checkTimeouts with
        | (.ok .nothing, peer) => (false, live.mapHost (·.setPeer id peer))
        | (.ok (.datagram bytes), peer) =>
          (true, (live.mapHost (·.setPeer id peer)).transmit env address bytes)
        | (.ok .timedOut, _) =>
          (false, live.mapHost fun host ↦ (host.release id).reportDeparture id peer.state)
        | (.error _, peer) => (false, live.mapHost (·.setPeer id peer))
      else
        (false, live)

/-- Sends up to one datagram from each of some slots and says whether there was any, or one
had been `sent` before. -/
def sendPass (now : Stamp) (checkTimeouts : Bool) (sent : Bool) :
    List Nat → LiveHost σ → Bool × LiveHost σ
  | [], live => (sent, live)
  | index :: rest, live =>
    let (sentMore, live) := live.sendFrom env now checkTimeouts (UInt16.ofNat index)
    sendPass now checkTimeouts (sent || sentMore) rest live

/-- Goes through all slots until none has sent anything, at most so many times. -/
def sendPasses (now : Stamp) (checkTimeouts : Bool) : Nat → LiveHost σ → LiveHost σ
  | 0, live => live
  | passes + 1, live =>
    match live.sendPass env now checkTimeouts false (List.range live.host.table.capacity) with
    | (false, live) => live
    | (true, live) => live.sendPasses now checkTimeouts passes

/-- How many datagrams a peer can have to send at one moment: each carries a command that
waits or has been sent, or is a ping. -/
def datagramBound (peer : Peer) : Nat :=
  peer.acknowledgements.length + peer.reliable.length + peer.unreliable.length +
    peer.sent.length + 1

/-- How many datagrams all peers together can have to send at one moment. -/
def totalDatagramBound (host : Host) : Nat :=
  host.table.slots.toList.reduceOption.foldr (fun peer bound ↦ datagramBound peer + bound) 0

def sendOutgoing (live : LiveHost σ) (checkTimeouts : Bool) : LiveHost σ :=
  let (now, live) := live.now env
  live.sendPasses env now checkTimeouts (totalDatagramBound live.host + 1)

end LiveHost

/-! ## Receiving -/

namespace Host

/-- Opens a connection that a received command asks for, unless there is one with the same
remote address and challenge, the channels are too few or too many, or no slot is vacant. -/
def accept (host : Host) (address : Address) (header : Header) (command : Command)
    (offer : Handshake) (context : Context) : Except Fault (Option (PeerId × Host)) :=
  if !host.settings.acceptsChannelCount offer.channelCount.toNat then .ok none
  else if host.table.hasConnection address header.challenge then .ok none
  else
    match host.table.allocate with
    | none => .ok none
    | some (id, peer, table) => do
      let peer ← peer.accept address header command offer context
      return some (id, { host with table := table.set id peer })

/-- Finds the connection that a datagram of `length` bytes belongs to. It has to be active,
have the challenge of the header, and be known at the network address that the datagram
comes from; if the datagram was sent from another socket there, answers go to that one
from now on. -/
def matchPeer (host : Host) (header : Header) (address : Address) (length : Nat) :
    Option (PeerId × Host) :=
  match host.peer? header.peer with
  | none => none
  | some peer =>
    if !peer.state.isActive || peer.challenge != header.challenge then none
    else
      match peer.address with
      | none => none
      | some known =>
        if known.host = address.host then
          some (header.peer,
            host.setPeer header.peer ((peer.relocate address).recordReceived length))
        else none

/-- Has a connection handle a command. The answer says whether the connection goes on. -/
def handleCommand (host : Host) (id : PeerId) (header : Header) (command : Command)
    (context : Context) : Except Fault (Bool × Host) :=
  match host.peer? id with
  | none => .ok (false, host)
  | some peer => do
    let (event, handled) ← peer.handle header command context
    let host := host.setPeer id handled
    match event with
    | some .connected => return (true, host.requestRecalculation.pushEvent (.connected id))
    | some .disconnected => return (false, (host.release id).reportDeparture id peer.state)
    | none =>
      if handled.state = .disconnected then
        return (false, (host.release id).reportDeparture id peer.state)
      else
        return (true, host)

/-- Handles up to `count` commands of a datagram for the connection `target`, or for the one
that the first command opens. -/
def handleCommands (header : Header) (address : Address) (context : Context) :
    Nat → Option PeerId → Bytes → Host → Except Fault Host
  | 0, _, _, host => .ok host
  | count + 1, target, bytes, host =>
    if bytes.length < Tag.commonSize then .ok host
    else
      match Command.decode bytes with
      | .error _ => .ok host
      | .ok (command, rest) =>
        match target with
        | some id => do
          let (goesOn, host) ← host.handleCommand id header command context
          if goesOn then handleCommands header address context count target rest host
          else return host
        | none =>
          match command.body with
          | .connect offer => do
            match ← host.accept address header command offer context with
            | none => return host
            | some (id, host) =>
              handleCommands header address context count (some id) rest host
          | _ => .ok host

/-- The bytes of a datagram without its trailer; `none` if the trailer is wrong, or missing
where the host requires one. -/
def checkedContent (host : Host) (header : Header) (datagram : Bytes) : Option Bytes :=
  if header.hasChecksum then
    match Checksum.strip Checksum.crc32 datagram with
    | .ok content => some content
    | .error _ => none
  else if host.settings.checksums then none
  else some datagram

/-- Handles the commands of a datagram whose trailer has been checked. -/
def handleContent (host : Host) (address : Address) (header : Header) (length : Nat)
    (content : Bytes) (now : Stamp) : Except Fault Host :=
  let commands := content.drop Header.size
  let count := header.commandCount.toNat
  if header.isUnassigned then
    handleCommands header address (host.context now) count none commands host
  else
    match host.matchPeer header address length with
    | none => .ok host
    | some (id, host) =>
      handleCommands header address (host.context now) count (some id) commands host

end Host

namespace LiveHost

variable {σ : Type} (env : Environment σ)

/-- Handles a datagram that the interceptor has let through. -/
def handleKept (live : LiveHost σ) (address : Address) (datagram : Bytes) :
    Except Fault (LiveHost σ) :=
  match Header.decode datagram with
  | .error _ => .ok live
  | .ok header =>
    match live.host.checkedContent header datagram with
    | none => .ok live
    | some content => do
      let (now, live) := live.now env
      let host ← live.host.handleContent address header datagram.length content now
      return { live with host := host }

def handleDatagram (live : LiveHost σ) (address : Address) (datagram : Bytes) :
    Except Fault (LiveHost σ) :=
  match env.onReceive address datagram live.world with
  | (none, world) => .ok { live with world := world }
  | (some datagram, world) => { live with world := world }.handleKept env address datagram

def receiveLimit : Nat := 256

/-- Receives up to so many of the datagrams that have arrived, stopping as soon as there is
an event to report. A datagram is cut to the largest size that the host sends. -/
def receiveDatagrams : Nat → LiveHost σ → Except Fault (LiveHost σ)
  | 0, live => .ok live
  | count + 1, live =>
    match env.receive live.world with
    | (.error failure, world) => .ok ⟨live.host.pushEvent (.failed failure.cause), world⟩
    | (.ok none, world) => .ok { live with world := world }
    | (.ok (some (datagram, address)), world) => do
      let kept := datagram.take live.host.settings.mtu.upper.toNat
      let live ← { live with world := world }.handleDatagram env address kept
      if live.host.pending.isEmpty then receiveDatagrams count live else return live

def receiveIncoming (live : LiveHost σ) : Except Fault (LiveHost σ) :=
  live.receiveDatagrams env receiveLimit

end LiveHost

end ReliableDatagram
