import ReliableDatagram.Packet
import ReliableDatagram.Reassembly
import ReliableDatagram.Wire.Command

/-!
# Channels

A channel orders the packets of one direction of traffic. What arrives is kept in
two buffers until it can be delivered: the reliable one in ascending order of the
reliable sequence numbers, the other one with unsequenced packets in front, oldest
first, and then sequenced unreliable packets in ascending order. A reliable packet
is delivered when its number is one past the last delivered one; an unreliable packet
waits for the reliable packets sent before it and is dropped when later ones were
delivered. Sequence numbers are compared without regard to wrapping.
-/

namespace ReliableDatagram

inductive Content where
  /-- A packet that came whole. -/
  | packet (packet : Packet)
  /-- A packet that comes in fragments. -/
  | fragments (reassembly : Reassembly)
deriving DecidableEq, Repr, Inhabited

/-- Data that arrived and has not been delivered. -/
structure Arrival where
  /-- The reliable number: its own, or that of the reliable packet sent before it. -/
  sequence : UInt32
  /-- The unreliable number; 0 for what has none. -/
  unreliableSequence : UInt32
  content : Content
deriving DecidableEq, Repr, Inhabited

namespace Arrival

def remaining (arrival : Arrival) : UInt32 :=
  match arrival.content with
  | .packet _ => 0
  | .fragments reassembly => reassembly.remaining

/-- How many sequence numbers the packet takes up. -/
def span (arrival : Arrival) : UInt32 :=
  match arrival.content with
  | .packet _ => 1
  | .fragments reassembly => max reassembly.count 1

/-- The packet as far as it has arrived; one that came in fragments is reliable. -/
def toPacket (arrival : Arrival) : Packet :=
  match arrival.content with
  | .packet packet => packet
  | .fragments reassembly => ⟨reassembly.bytes, .reliable⟩

/-- Puts an arrival into a buffer that is given from its newest end, in front of the first
entry with a smaller key; `none` if an entry with the same key is met before. -/
def place (key : Arrival → UInt32) (arrival : Arrival) : List Arrival → Option (List Arrival)
  | [] => some [arrival]
  | entry :: older =>
    if key entry = key arrival then none
    else if key entry < key arrival then some (arrival :: entry :: older)
    else (place key arrival older).map (entry :: ·)

/-- Puts an arrival into a buffer that is given from its oldest end. -/
def insertInto (key : Arrival → UInt32) (arrival : Arrival) (buffer : List Arrival) :
    Option (List Arrival) :=
  (place key arrival buffer.reverse).map List.reverse

/-- Takes the next deliverable arrival out of a reliable buffer. Entries that are no longer
needed are dropped on the way; an entry that has to wait ends the search. -/
def takeNext (delivered : UInt32) : List Arrival → Option Arrival × List Arrival
  | [] => (none, [])
  | head :: rest =>
    if 0 < head.remaining ∨ delivered.toNat + 1 < head.sequence.toNat then (none, head :: rest)
    else if delivered < head.sequence then (some head, rest)
    else takeNext delivered rest

end Arrival

/-- One channel of a connection: the numbers of both directions, and what has arrived. -/
structure Channel where
  /-- The last reliable number given to a command of this side. -/
  outgoingReliable : UInt32 := 0
  /-- The last unreliable number given to a command of this side. -/
  outgoingUnreliable : UInt32 := 0
  /-- The last reliable number delivered. -/
  incomingReliable : UInt32 := 0
  /-- The last unreliable number delivered. -/
  incomingUnreliable : UInt32 := 0
  /-- Reliable arrivals, the oldest number first. -/
  reliable : List Arrival := []
  /-- Unsequenced arrivals, then unreliable ones with the oldest number first. -/
  unreliable : List Arrival := []
deriving DecidableEq, Repr, Inhabited

/-- What a channel holds under the start number of a fragmented packet. -/
inductive RunLookup where
  | absent
  /-- Something that is not a fragmented packet. -/
  | taken
  /-- The packet as far as it has arrived. -/
  | found (reassembly : Reassembly)
deriving DecidableEq, Repr, Inhabited

namespace Channel

/-! ## Arrivals -/

/-- Keeps a reliable arrival, unless it was delivered or has arrived before. -/
def queueReliable (channel : Channel) (arrival : Arrival) : Bool × Channel :=
  if arrival.sequence ≤ channel.incomingReliable then (false, channel)
  else
    match arrival.insertInto Arrival.sequence channel.reliable with
    | none => (false, channel)
    | some buffer => (true, { channel with reliable := buffer })

/-- Keeps an unreliable arrival, unless it comes too late or has arrived before. -/
def queueUnreliable (channel : Channel) (arrival : Arrival) : Bool × Channel :=
  if arrival.sequence < channel.incomingReliable ∨
      arrival.unreliableSequence ≤ channel.incomingUnreliable then (false, channel)
  else
    match arrival.insertInto Arrival.unreliableSequence channel.unreliable with
    | none => (false, channel)
    | some buffer => (true, { channel with unreliable := buffer })

/-- Keeps an unsequenced arrival, behind those that came before it. -/
def queueUnsequenced (channel : Channel) (arrival : Arrival) : Channel :=
  let isUnsequenced (entry : Arrival) : Bool := entry.unreliableSequence == 0
  { channel with
    unreliable := channel.unreliable.takeWhile isUnsequenced ++
      arrival :: channel.unreliable.dropWhile isUnsequenced }

def findRun (channel : Channel) (start : UInt32) : RunLookup :=
  match channel.reliable.find? fun entry ↦ entry.sequence == start with
  | none => .absent
  | some entry =>
    match entry.content with
    | .packet _ => .taken
    | .fragments reassembly => .found reassembly

/-- Replaces the content of the first entry that begins at a sequence number. -/
def replaceRun (start : UInt32) (reassembly : Reassembly) : List Arrival → List Arrival
  | [] => []
  | entry :: rest =>
    if entry.sequence = start then { entry with content := .fragments reassembly } :: rest
    else entry :: replaceRun start reassembly rest

def setRun (channel : Channel) (start : UInt32) (reassembly : Reassembly) : Channel :=
  { channel with reliable := replaceRun start reassembly channel.reliable }

/-- Keeps a fragment. One that belongs to a delivered packet, that differs from its packet in
size or count, or whose start number another packet has taken, is ignored. -/
def addFragment (channel : Channel) (fragment : Fragment) : Channel :=
  let insert (reassembly : Reassembly) : Reassembly :=
    (reassembly.insert fragment.number fragment.offset.toNat fragment.payload).2
  if fragment.start ≤ channel.incomingReliable then channel
  else
    match channel.findRun fragment.start with
    | .taken => channel
    | .found reassembly =>
      if reassembly.fits fragment.total.toNat fragment.count then
        channel.setRun fragment.start (insert reassembly)
      else channel
    | .absent =>
      let fresh := insert (.empty fragment.total.toNat fragment.count)
      (channel.queueReliable ⟨fragment.start, 0, .fragments fresh⟩).2

/-! ## Delivery -/

def receiveReliable (channel : Channel) : Option Packet × Channel :=
  match Arrival.takeNext channel.incomingReliable channel.reliable with
  | (none, buffer) => (none, { channel with reliable := buffer })
  | (some arrival, buffer) =>
    (some arrival.toPacket, { channel with
      reliable := buffer
      incomingReliable := arrival.sequence + (arrival.span - 1) })

/-- An unreliable arrival has to wait for a reliable packet that was sent before it. -/
def holdsBack (channel : Channel) (arrival : Arrival) : Bool :=
  decide (0 < arrival.unreliableSequence) && decide (channel.incomingReliable < arrival.sequence)

/-- Delivers the next packet: the foremost unreliable one unless it has to wait, or else the
next reliable one. -/
def receive (channel : Channel) : Option Packet × Channel :=
  match channel.unreliable with
  | [] => channel.receiveReliable
  | head :: rest =>
    if channel.holdsBack head then channel.receiveReliable
    else (some head.toPacket, { channel with
      unreliable := rest
      incomingUnreliable :=
        if 0 < head.unreliableSequence then head.unreliableSequence
        else channel.incomingUnreliable })

def pending (channel : Channel) : Nat := channel.reliable.length + channel.unreliable.length

end Channel

end ReliableDatagram
