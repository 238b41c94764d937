import ReliableDatagram.Saturating
import ReliableDatagram.Wire.Command

/-!
# What a peer has to send

Commands wait in a queue until a datagram has room for them. A reliable command then
stays with the peer, together with the time by which it has to be acknowledged, until
its acknowledgement arrives. Acknowledgements of received commands wait for the next
datagram.
-/

namespace ReliableDatagram

/-- A command that waits to be sent or to be acknowledged. -/
structure Outgoing where
  command : Command
  /-- When it was last sent. -/
  sentTime : Stamp := 0
  /-- How long its acknowledgement may take; 0 before it was first sent. -/
  timeout : UInt32 := 0
  /-- The timeout at which the connection is given up. -/
  timeoutLimit : UInt32 := 0
deriving DecidableEq, Repr, Inhabited

namespace Outgoing

def payloadLength (outgoing : Outgoing) : UInt32 :=
  UInt32.ofNat outgoing.command.body.payloadLength

/-- The command carries a payload, be it empty. -/
def hasPayload (outgoing : Outgoing) : Bool := outgoing.command.hasPayload

def isNamed (outgoing : Outgoing) (sequence : UInt32) (channel : UInt8) : Bool :=
  outgoing.command.sequence == sequence && outgoing.command.channel == channel

def deadline (outgoing : Outgoing) : Stamp := outgoing.sentTime + outgoing.timeout

def isOverdue (outgoing : Outgoing) (now : Stamp) : Bool :=
  decide (outgoing.timeout ≤ Stamp.distance now outgoing.sentTime)

/-- The timeout has grown as far as it may. -/
def isExhausted (outgoing : Outgoing) : Bool := decide (outgoing.timeoutLimit ≤ outgoing.timeout)

/-- The command with twice its timeout, to be sent again. -/
def backedOff (outgoing : Outgoing) : Outgoing :=
  { outgoing with timeout := Word.mulSat outgoing.timeout 2 }

end Outgoing

structure Acknowledgement where
  channel : UInt8
  sequence : UInt32
  /-- When the command was sent, by the clock of its sender. -/
  sentTime : Stamp
  tag : Tag
deriving DecidableEq, Repr, Inhabited

namespace Acknowledgement

/-- The acknowledgement of a command from a datagram sent at `sentTime`. -/
def ofCommand (command : Command) (sentTime : Stamp) : Acknowledgement :=
  ⟨command.channel, command.sequence, sentTime, command.tag⟩

def toCommand (acknowledgement : Acknowledgement) : Command where
  channel := acknowledgement.channel
  flags := 0
  sequence := acknowledgement.sequence
  body := .acknowledge acknowledgement.sequence acknowledgement.sentTime

end Acknowledgement

end ReliableDatagram
