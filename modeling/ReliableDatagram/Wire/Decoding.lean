import ReliableDatagram.Error
import ReliableDatagram.Wire.Command
import ReliableDatagram.Wire.Header

/-!
# Reading datagrams

Reading is total on hostile bytes. A command is read in four tests, in this order:
its tag is known, its fields are all there, its declared length can hold its fields,
and the declared bytes are all there. Bytes that a command without payload declares
beyond its fields are stepped over.
-/

namespace ReliableDatagram

namespace ThrottleParameters

def decode (bytes : Bytes) (offset : Nat) : ThrottleParameters where
  interval := bytes.word32At offset
  acceleration := bytes.word32At (offset + 4)
  deceleration := bytes.word32At (offset + 8)

end ThrottleParameters

namespace Handshake

def decode (bytes : Bytes) (offset : Nat) : Handshake where
  peer := bytes.word16At offset
  mtu := bytes.word16At (offset + 2)
  window := bytes.word32At (offset + 4)
  channelCount := bytes.word32At (offset + 8)
  incomingBandwidth := bytes.word32At (offset + 12)
  outgoingBandwidth := bytes.word32At (offset + 16)
  throttle := ThrottleParameters.decode bytes (offset + 20)

end Handshake

namespace Tag

def decode : Bytes → Except DecodeError Tag
  | [] => .error .truncatedCommand
  | byte :: _ =>
    match ofCode? byte with
    | some tag => .ok tag
    | none => .error (.unknownCommand byte)

def decodeBody (tag : Tag) (bytes payload : Bytes) : Body :=
  match tag with
  | idle => .idle
  | acknowledge => .acknowledge (bytes.word32At 12) (bytes.word32At 16)
  | connect => .connect (Handshake.decode bytes 12)
  | verifyConnect => .verifyConnect (Handshake.decode bytes 12)
  | disconnect => .disconnect
  | ping => .ping
  | sendReliable => .sendReliable payload
  | sendUnreliable => .sendUnreliable (bytes.word32At 12) payload
  | sendFragment => .sendFragment {
      start := bytes.word32At 12
      count := bytes.word32At 16
      number := bytes.word32At 20
      total := bytes.word32At 24
      offset := bytes.word32At 28
      payload := payload }
  | bandwidthLimit => .bandwidthLimit (bytes.word32At 12) (bytes.word32At 16)
  | throttleConfigure => .throttleConfigure (ThrottleParameters.decode bytes 12)
  | sendUnsequenced => .sendUnsequenced (bytes.word32At 12) payload

end Tag

namespace Command

/-- Reads one command and returns it with the bytes behind it. -/
def decode (bytes : Bytes) : Except DecodeError (Command × Bytes) := do
  let tag ← Tag.decode bytes
  if bytes.length < tag.headerSize then throw .truncatedCommand
  let declared := bytes.word32At 4
  if declared.toNat < tag.headerSize then throw (.invalidLength declared)
  if bytes.length < declared.toNat then throw .truncatedCommand
  let payload := (bytes.take declared.toNat).drop tag.headerSize
  return ({
    channel := bytes.byteAt 1
    flags := bytes.byteAt 2
    sequence := bytes.word32At 8
    body := tag.decodeBody bytes payload }, bytes.drop declared.toNat)

end Command

namespace Datagram

/-- Reads up to `count` commands, as long as enough bytes for another one remain. -/
def decodeCommands : Nat → Bytes → Except DecodeError (List Command)
  | 0, _ => .ok []
  | count + 1, bytes =>
    if bytes.length < Tag.commonSize then .ok []
    else do
      let (command, rest) ← Command.decode bytes
      let others ← decodeCommands count rest
      return command :: others

def decode (bytes : Bytes) : Except DecodeError (Header × List Command) := do
  let header ← Header.decode bytes
  let commands ← decodeCommands header.commandCount.toNat (bytes.drop Header.size)
  return (header, commands)

end Datagram

end ReliableDatagram
