import ReliableDatagram.Error
import ReliableDatagram.Wire.Command
import ReliableDatagram.Wire.Header

/-!
# Writing datagrams

A command is written as its common part (tag, channel, flags, an unused byte, its
length, its sequence number), its fields and its payload; a datagram is a header
and then its commands. Writing fails only where a count or a length does not fit
the field that has to hold it.
-/

namespace ReliableDatagram

namespace ThrottleParameters

def encode (parameters : ThrottleParameters) : Bytes :=
  Bytes.write32 parameters.interval ++ Bytes.write32 parameters.acceleration ++
    Bytes.write32 parameters.deceleration

end ThrottleParameters

namespace Handshake

def encode (handshake : Handshake) : Bytes :=
  Bytes.write16 handshake.peer ++ Bytes.write16 handshake.mtu ++
    Bytes.write32 handshake.window ++ Bytes.write32 handshake.channelCount ++
    Bytes.write32 handshake.incomingBandwidth ++ Bytes.write32 handshake.outgoingBandwidth ++
    handshake.throttle.encode

end Handshake

namespace Fragment

def encodeFields (fragment : Fragment) : Bytes :=
  Bytes.write32 fragment.start ++ Bytes.write32 fragment.count ++
    Bytes.write32 fragment.number ++ Bytes.write32 fragment.total ++
    Bytes.write32 fragment.offset

end Fragment

namespace Body

/-- The bytes of the fields that the tag of a body calls for. -/
def encodeFields : Body → Bytes
  | idle | disconnect | ping | sendReliable _ => []
  | acknowledge sequence sentTime => Bytes.write32 sequence ++ Bytes.write32 sentTime
  | connect handshake | verifyConnect handshake => handshake.encode
  | sendUnreliable sequence _ => Bytes.write32 sequence
  | sendFragment fragment => fragment.encodeFields
  | bandwidthLimit incoming outgoing => Bytes.write32 incoming ++ Bytes.write32 outgoing
  | throttleConfigure parameters => parameters.encode
  | sendUnsequenced group _ => Bytes.write32 group

theorem length_encodeFields (body : Body) : body.encodeFields.length = body.tag.fixedSize := by
  cases body <;> rfl

end Body

namespace Command

def encodeCommon (command : Command) : Bytes :=
  [command.tag.code, command.channel, command.flags, 0] ++
    Bytes.write32 (UInt32.ofNat command.encodedLength) ++ Bytes.write32 command.sequence

/-- The bytes of a command whose length is known to fit its length field. -/
def layout (command : Command) : Bytes :=
  command.encodeCommon ++ command.body.encodeFields ++ command.body.payload?.getD []

def encode (command : Command) : Except EncodeError Bytes :=
  if command.encodedLength < 4294967296 then .ok command.layout else .error .commandTooLarge

theorem length_layout (command : Command) : command.layout.length = command.encodedLength := by
  have h := command.body.length_encodeFields
  cases hp : command.body.payload? <;>
    simp [layout, encodeCommon, encodedLength, headerSize, Tag.headerSize, Tag.commonSize, tag,
      Body.payloadLength, h, hp] <;> omega

end Command

namespace Datagram

def encodeCommands : List Command → Except EncodeError Bytes
  | [] => .ok []
  | command :: rest => do
    let first ← command.encode
    let others ← encodeCommands rest
    return first ++ others

/-- The bytes of a datagram; the header is written with the number of commands. -/
def encode (header : Header) (commands : List Command) : Except EncodeError Bytes :=
  if commands.length < 256 then do
    let bytes ← encodeCommands commands
    return { header with commandCount := UInt8.ofNat commands.length }.encode ++ bytes
  else
    .error .tooManyCommands

end Datagram

end ReliableDatagram
