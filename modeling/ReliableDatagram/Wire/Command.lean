import ReliableDatagram.Bytes
import ReliableDatagram.Settings
import ReliableDatagram.Stamp

/-!
# Commands

Everything that one peer says to another is a command: data, acknowledgements, the
steps of the handshake and of leaving, pings, and flow control. A command belongs to
a channel (255 is the control channel of the connection itself), has flags and a
sequence number, and a body whose shape its tag determines.
-/

namespace ReliableDatagram

/-- The channel of commands that concern the connection as a whole. -/
def controlChannel : UInt8 := 0xFF

inductive Tag where
  | idle
  | acknowledge
  | connect
  | verifyConnect
  | disconnect
  | ping
  | sendReliable
  | sendUnreliable
  | sendFragment
  | bandwidthLimit
  | throttleConfigure
  | sendUnsequenced
deriving DecidableEq, Repr, Inhabited

namespace Tag

/-- The byte that a command of this kind begins with. -/
def code : Tag → UInt8
  | idle => 0
  | acknowledge => 1
  | connect => 2
  | verifyConnect => 3
  | disconnect => 4
  | ping => 5
  | sendReliable => 6
  | sendUnreliable => 7
  | sendFragment => 8
  | bandwidthLimit => 9
  | throttleConfigure => 10
  | sendUnsequenced => 11

def ofCode? (byte : UInt8) : Option Tag :=
  match byte.toNat with
  | 0 => some idle
  | 1 => some acknowledge
  | 2 => some connect
  | 3 => some verifyConnect
  | 4 => some disconnect
  | 5 => some ping
  | 6 => some sendReliable
  | 7 => some sendUnreliable
  | 8 => some sendFragment
  | 9 => some bandwidthLimit
  | 10 => some throttleConfigure
  | 11 => some sendUnsequenced
  | _ => none

/-- The bytes of the fields that stand between the common part and the payload. -/
def fixedSize : Tag → Nat
  | idle | disconnect | ping | sendReliable => 0
  | acknowledge | bandwidthLimit => 8
  | connect | verifyConnect => 32
  | sendUnreliable | sendUnsequenced => 4
  | sendFragment => 20
  | throttleConfigure => 12

def commonSize : Nat := 12

/-- The bytes in front of the payload. -/
def headerSize (tag : Tag) : Nat := commonSize + tag.fixedSize

def carriesPayload : Tag → Bool
  | sendReliable | sendUnreliable | sendFragment | sendUnsequenced => true
  | _ => false

@[simp] theorem ofCode?_code (tag : Tag) : ofCode? tag.code = some tag := by
  cases tag <;> rfl

end Tag

/-- What one side offers or answers in the handshake. -/
structure Handshake where
  /-- The slot that the sender of this gives the connection. -/
  peer : UInt16
  /-- The largest datagram that it will send. -/
  mtu : UInt16
  /-- The reliable window that it will use. -/
  window : UInt32
  channelCount : UInt32
  /-- The bandwidth at which it can receive; 0 is unlimited. -/
  incomingBandwidth : UInt32
  /-- The bandwidth at which it can send; 0 is unlimited. -/
  outgoingBandwidth : UInt32
  throttle : ThrottleParameters
deriving DecidableEq, Repr, Inhabited

structure Fragment where
  /-- The sequence number of the first fragment of the packet. -/
  start : UInt32
  count : UInt32
  /-- Which of them this is, from 0. -/
  number : UInt32
  total : UInt32
  /-- Where in the packet the bytes of this fragment belong. -/
  offset : UInt32
  payload : Bytes
deriving DecidableEq, Repr, Inhabited

inductive Body where
  | idle
  /-- The command of the same channel with this number and time of sending arrived. -/
  | acknowledge (sequence : UInt32) (sentTime : Stamp)
  | connect (handshake : Handshake)
  | verifyConnect (handshake : Handshake)
  | disconnect
  | ping
  /-- A packet to be delivered exactly once and in order. -/
  | sendReliable (payload : Bytes)
  /-- A packet to be delivered in order or not at all. -/
  | sendUnreliable (sequence : UInt32) (payload : Bytes)
  | sendFragment (fragment : Fragment)
  /-- The bandwidth that the sender can receive and send at. -/
  | bandwidthLimit (incoming outgoing : UInt32)
  | throttleConfigure (parameters : ThrottleParameters)
  /-- A packet to be delivered at most once, in any order. -/
  | sendUnsequenced (group : UInt32) (payload : Bytes)
deriving DecidableEq, Repr, Inhabited

namespace Body

def tag : Body → Tag
  | idle => .idle
  | acknowledge .. => .acknowledge
  | connect _ => .connect
  | verifyConnect _ => .verifyConnect
  | disconnect => .disconnect
  | ping => .ping
  | sendReliable _ => .sendReliable
  | sendUnreliable .. => .sendUnreliable
  | sendFragment _ => .sendFragment
  | bandwidthLimit .. => .bandwidthLimit
  | throttleConfigure _ => .throttleConfigure
  | sendUnsequenced .. => .sendUnsequenced

def payload? : Body → Option Bytes
  | sendReliable payload | sendUnreliable _ payload | sendUnsequenced _ payload => some payload
  | sendFragment fragment => some fragment.payload
  | _ => none

/-- The number of payload bytes, 0 if the command carries none. -/
def payloadLength (body : Body) : Nat := (body.payload?.map List.length).getD 0

theorem isSome_payload? (body : Body) : body.payload?.isSome = body.tag.carriesPayload := by
  cases body <;> rfl

end Body

structure Command where
  channel : UInt8
  /-- The raw flag bits; unknown ones are kept. -/
  flags : UInt8
  sequence : UInt32
  body : Body
deriving DecidableEq, Repr, Inhabited

namespace Command

/-- The flag bit that asks for an acknowledgement. -/
def acknowledgeFlag : UInt8 := 1

/-- The flag bit that exempts a command from sequencing. -/
def unsequencedFlag : UInt8 := 2

/-- A command that has no sequence number yet. -/
def unnumbered (body : Body) (channel flags : UInt8) : Command := ⟨channel, flags, 0, body⟩

def tag (command : Command) : Tag := command.body.tag

def requiresAcknowledgement (command : Command) : Bool :=
  command.flags &&& acknowledgeFlag == acknowledgeFlag

def isUnsequenced (command : Command) : Bool :=
  command.flags &&& unsequencedFlag == unsequencedFlag

/-- The command carries a payload, be it empty. -/
def hasPayload (command : Command) : Bool := command.body.payload?.isSome

def headerSize (command : Command) : Nat := command.tag.headerSize

def encodedLength (command : Command) : Nat := command.headerSize + command.body.payloadLength

end Command

end ReliableDatagram
