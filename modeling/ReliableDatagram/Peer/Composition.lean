import ReliableDatagram.Peer.Basic
import ReliableDatagram.Wire.Checksum
import ReliableDatagram.Wire.Encoding

/-!
# Composing datagrams

A datagram is filled in a fixed order: acknowledgements, then reliable commands (those
whose acknowledgement is overdue first), then the others. Each part is a prefix of its
queue and ends at the first command that does not fit; reliable payload also has to
fit the window, and unreliable payload has to pass the throttle. An idle connection
sends a ping.
-/

namespace ReliableDatagram

structure Draft where
  commands : List Command
  /-- The bytes that they, the header and the trailer take. -/
  size : Nat
  /-- The buffers that they are gathered from. -/
  buffers : Nat
  sizeLimit : Nat
  commandLimit : Nat
  bufferLimit : Nat
deriving DecidableEq, Repr

namespace Draft

def hasRoom (draft : Draft) : Bool := decide (draft.commands.length < draft.commandLimit)

def fits (draft : Draft) (command : Command) : Bool :=
  draft.hasRoom && decide (draft.buffers < draft.bufferLimit) &&
    decide (command.encodedLength ≤ draft.sizeLimit - draft.size)

/-- Adds a command; its payload takes a buffer of its own. -/
def push (draft : Draft) (command : Command) : Draft :=
  { draft with
    commands := draft.commands ++ [command]
    size := draft.size + command.encodedLength
    buffers := draft.buffers + if command.hasPayload then 2 else 1 }

end Draft

inductive Composition where
  | nothing
  | datagram (bytes : Bytes)
  /-- A command was sent too often; the connection is given up. -/
  | timedOut
deriving DecidableEq, Repr, Inhabited

namespace Peer

def draft (peer : Peer) : Draft where
  commands := []
  size := Header.size + if peer.settings.checksums then Checksum.size else 0
  buffers := 1
  sizeLimit := peer.mtu.toNat
  commandLimit := peer.settings.commandsPerDatagram
  bufferLimit := peer.settings.buffersPerDatagram

/-! ## Acknowledgements -/

/-- Adds the given acknowledgements as far as they fit. Sending the one of a departure ends
the connection. -/
def sendAcknowledgements (peer : Peer) (draft : Draft) : List Acknowledgement → Draft × Peer
  | [] => (draft, { peer with acknowledgements := [] })
  | acknowledgement :: rest =>
    if draft.fits acknowledgement.toCommand then
      let peer :=
        if acknowledgement.tag = .disconnect then { peer with state := .zombie } else peer
      peer.sendAcknowledgements (draft.push acknowledgement.toCommand) rest
    else
      (draft, { peer with acknowledgements := acknowledgement :: rest })

/-! ## Reliable commands -/

/-- Sets the time to look at unacknowledged commands again by the oldest of them. -/
def refreshTimeout (peer : Peer) : Peer :=
  match peer.sent with
  | [] => peer
  | oldest :: _ => { peer with nextTimeout := oldest.deadline }

/-- An overdue command is counted as lost, and what it carries is no longer in transit. -/
def lose (peer : Peer) (outgoing : Outgoing) : Peer :=
  { peer with
    inTransit := Word.subSat peer.inTransit outgoing.payloadLength
    traffic := { peer.traffic with commandsLost := peer.traffic.commandsLost + 1 }
    lossMeter := peer.lossMeter.recordLost }

def putFirst (peer : Peer) (outgoing : Outgoing) : Peer :=
  { peer with reliable := outgoing :: peer.reliable }

/-- Goes through what is left of a flight, with the overdue commands so far. Commands that still
have time stay in flight; when all have been looked at, the others are put before those that
wait, each with twice its timeout. A command that was sent as often as it may ends it all: the
connection is given up. -/
def part (now : Stamp) : List Outgoing → List Outgoing → Peer → Bool × Peer
  | [], overdue, peer => (false, refreshTimeout (overdue.reverse.foldl putFirst peer))
  | outgoing :: rest, overdue, peer =>
    if Stamp.distance now outgoing.sentTime < outgoing.timeout then
      part now rest overdue { peer with sent := peer.sent ++ [outgoing] }
    else if outgoing.timeoutLimit ≤ outgoing.timeout then (true, peer.reset)
    else part now rest (overdue ++ [outgoing.backedOff]) (peer.lose outgoing)

/-- Parts the flight by whether a command is overdue, and says whether the connection is given
up. -/
def checkTimeouts (peer : Peer) (now : Stamp) : Bool × Peer :=
  part now peer.sent [] { peer with sent := [] }

/-- How many bytes of reliable payload may be in flight: the window, but at least a datagram. -/
def transitLimit (peer : Peer) : UInt32 := max peer.window peer.mtu.toUInt32

def exceedsWindow (peer : Peer) (outgoing : Outgoing) : Bool :=
  outgoing.hasPayload &&
    decide (peer.transitLimit < Word.addSat peer.inTransit outgoing.payloadLength)

/-- A command as it is kept while its acknowledgement is awaited. The first timeout follows
from the round trip estimate. -/
def stamp (peer : Peer) (outgoing : Outgoing) (now : Stamp) : Outgoing :=
  if outgoing.timeout = 0 then
    let timeout := max peer.pacing.retransmitTimeout 1
    { outgoing with
      sentTime := now
      timeout := timeout
      timeoutLimit := Word.mulSat timeout peer.settings.timeoutLimit }
  else
    { outgoing with sentTime := now }

def awaitAcknowledgement (peer : Peer) (outgoing : Outgoing) (now : Stamp) : Peer :=
  let stamped := peer.stamp outgoing now
  { peer with
    nextTimeout := if peer.sent.isEmpty then now + stamped.timeout else peer.nextTimeout
    inTransit := peer.inTransit + outgoing.payloadLength
    lossMeter := peer.lossMeter.recordSent
    sent := peer.sent ++ [stamped] }

/-- Adds the given reliable commands as far as they fit the datagram and the window. -/
def sendReliable (peer : Peer) (draft : Draft) (now : Stamp) : List Outgoing → Draft × Peer
  | [] => (draft, { peer with reliable := [] })
  | outgoing :: rest =>
    if draft.fits outgoing.command && !peer.exceedsWindow outgoing then
      (peer.awaitAcknowledgement outgoing now).sendReliable (draft.push outgoing.command) now rest
    else
      (draft, { peer with reliable := outgoing :: rest })

/-! ## Unreliable commands -/

/-- Adds the given unreliable commands as far as they fit; those whose payload the throttle
stops are dropped. -/
def sendUnreliable (peer : Peer) (draft : Draft) : List Outgoing → Draft × Peer
  | [] => (draft, { peer with unreliable := [] })
  | outgoing :: rest =>
    if draft.fits outgoing.command then
      if outgoing.hasPayload then
        let (passes, pacing) := peer.pacing.passUnreliable
        let peer := { peer with pacing := pacing }
        if passes then peer.sendUnreliable (draft.push outgoing.command) rest
        else peer.sendUnreliable draft rest
      else
        peer.sendUnreliable (draft.push outgoing.command) rest
    else
      (draft, { peer with unreliable := outgoing :: rest })

/-! ## Whole datagrams -/

/-- The connection has been silent so long that a ping is due. -/
def needsPing (peer : Peer) (draft : Draft) (now : Stamp) : Bool :=
  peer.state == .connected && peer.sent.isEmpty &&
    decide (peer.settings.pingInterval ≤ Stamp.distance now peer.lastReceive) &&
    draft.fits (.unnumbered .ping 0 Command.acknowledgeFlag)

/-- Adds what waits to be sent reliably, or a ping if one is due. -/
def fillReliable (peer : Peer) (draft : Draft) (now : Stamp) : Draft × Peer :=
  if !peer.reliable.isEmpty then peer.sendReliable draft now peer.reliable
  else if peer.needsPing draft now then peer.ping.sendReliable draft now peer.ping.reliable
  else (draft, peer)

def timeoutsDue (peer : Peer) (now : Stamp) : Bool :=
  !peer.sent.isEmpty && Stamp.notBefore now peer.nextTimeout

/-- Fills a draft from the queues; `none` if the connection was given up. -/
def fill (peer : Peer) (now : Stamp) (checkTimeouts : Bool) : Option Draft × Peer :=
  let (draft, peer) := peer.sendAcknowledgements peer.draft peer.acknowledgements
  if draft.hasRoom then
    let (gaveUp, peer) :=
      if checkTimeouts && peer.timeoutsDue now then peer.checkTimeouts now else (false, peer)
    if gaveUp then (none, peer)
    else
      let (draft, peer) := peer.fillReliable draft now
      let (draft, peer) := peer.sendUnreliable draft peer.unreliable
      (some draft, peer)
  else
    let (draft, peer) := peer.sendUnreliable draft peer.unreliable
    (some draft, peer)

def header (peer : Peer) (now : Stamp) : Header where
  peer := peer.remoteId
  flags := if peer.settings.checksums then Header.checksumFlag else 0
  commandCount := 0
  sentTime := now
  challenge := peer.challenge

def encodeDatagram (peer : Peer) (commands : List Command) (now : Stamp) :
    Except EncodeError Bytes := do
  let bytes ← Datagram.encode (peer.header now) commands
  return if peer.settings.checksums then Checksum.append Checksum.crc32 bytes else bytes

/-- Lays out a draft and counts it as sent; the loss is sampled first. -/
def finish (peer : Peer) (draft : Draft) (now : Stamp) :
    Except EncodeError Composition × Peer :=
  let (_, meter, traffic) := peer.lossMeter.update now peer.traffic peer.settings
  let peer := { peer with lossMeter := meter, traffic := traffic }
  match peer.encodeDatagram draft.commands now with
  | .error error => (.error error, peer)
  | .ok bytes =>
    (.ok (.datagram bytes), { peer with
      lastSend := now
      traffic := peer.traffic.recordSent bytes.length })

/-- Composes the next datagram to be sent at `now`, looking for overdue commands if asked to. -/
def compose (peer : Peer) (now : Stamp) (checkTimeouts : Bool) :
    Except EncodeError Composition × Peer :=
  if !peer.state.isActive then (.ok .nothing, peer)
  else
    match peer.fill now checkTimeouts with
    | (none, peer) => (.ok .timedOut, peer)
    | (some draft, peer) =>
      if draft.commands.isEmpty then (.ok .nothing, peer) else peer.finish draft now

end Peer

end ReliableDatagram
