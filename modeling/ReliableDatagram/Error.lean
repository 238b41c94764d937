/-!
# Errors

Three kinds of failure reach the application: a datagram that cannot be read, a
request that the transport refuses, and an input or output failure that the socket
reports. Each is a cause; its wording stands in one `message` function per kind.
-/

namespace ReliableDatagram

inductive DecodeError where
  | headerTooShort
  | unknownCommand (tag : UInt8)
  /-- A command ends before its fields or its declared length do. -/
  | truncatedCommand
  /-- A command declares a length that cannot hold its fields. -/
  | invalidLength (length : UInt32)
  /-- The trailer is missing or is not the checksum of the bytes before it. -/
  | checksumMismatch
deriving DecidableEq, Repr, Inhabited

namespace DecodeError

def message : DecodeError → String
  | headerTooShort => "datagram shorter than its header"
  | unknownCommand tag => "unknown command tag " ++ toString tag.toNat
  | truncatedCommand => "command truncated"
  | invalidLength length => "encoded length " ++ toString length.toNat ++ " too short for command"
  | checksumMismatch => "checksum mismatch"

end DecodeError

inductive EncodeError where
  /-- More commands than the one-byte count of the header can tell. -/
  | tooManyCommands
  /-- A command longer than its 32-bit length field can tell. -/
  | commandTooLarge
deriving DecidableEq, Repr, Inhabited

namespace EncodeError

def message : EncodeError → String
  | tooManyCommands => "too many commands"
  | commandTooLarge => "command too large"

end EncodeError

/-- The cause of an input or output failure, as the socket reports it. -/
inductive IoCause where
  | notFound
  | permissionDenied
  | connectionRefused
  | connectionReset
  | hostUnreachable
  | networkUnreachable
  | connectionAborted
  | notConnected
  | addrInUse
  | addrNotAvailable
  | networkDown
  | brokenPipe
  | alreadyExists
  | wouldBlock
  | invalidInput
  | invalidData
  | timedOut
  | writeZero
  | interrupted
  | unsupported
  | unexpectedEof
  | outOfMemory
  | other
deriving DecidableEq, Repr, Inhabited

namespace IoCause

def all : List IoCause :=
  [notFound, permissionDenied, connectionRefused, connectionReset, hostUnreachable,
    networkUnreachable, connectionAborted, notConnected, addrInUse, addrNotAvailable, networkDown,
    brokenPipe, alreadyExists, wouldBlock, invalidInput, invalidData, timedOut, writeZero,
    interrupted, unsupported, unexpectedEof, outOfMemory, other]

/-- The wording of a cause that comes without a text of its own. -/
def message : IoCause → String
  | notFound => "entity not found"
  | permissionDenied => "permission denied"
  | connectionRefused => "connection refused"
  | connectionReset => "connection reset"
  | hostUnreachable => "host unreachable"
  | networkUnreachable => "network unreachable"
  | connectionAborted => "connection aborted"
  | notConnected => "not connected"
  | addrInUse => "address in use"
  | addrNotAvailable => "address not available"
  | networkDown => "network down"
  | brokenPipe => "broken pipe"
  | alreadyExists => "entity already exists"
  | wouldBlock => "operation would block"
  | invalidInput => "invalid input parameter"
  | invalidData => "invalid data"
  | timedOut => "timed out"
  | writeZero => "write zero"
  | interrupted => "operation interrupted"
  | unsupported => "unsupported"
  | unexpectedEof => "unexpected end of file"
  | outOfMemory => "out of memory"
  | other => "other error"

end IoCause

structure IoFailure where
  cause : IoCause
  /-- The text that the failure was raised with. -/
  text : Option String := none
deriving DecidableEq, Repr, Inhabited

namespace IoFailure

def message (failure : IoFailure) : String := failure.text.getD failure.cause.message

end IoFailure

inductive TransportError where
  | decoding (error : DecodeError)
  /-- The peer has not completed its handshake or is already leaving. -/
  | notConnected
  | invalidChannel (channel : UInt8)
  /-- The slot is vacant or does not exist. -/
  | unknownPeer (id : UInt16)
  | packetTooLarge (length maximum : Nat)
  | hostFull
  /-- The host that the request was meant for is gone. -/
  | hostClosed
  | io (failure : IoFailure)
deriving DecidableEq, Repr, Inhabited

namespace TransportError

def message : TransportError → String
  | decoding error => "could not decode datagram: " ++ error.message
  | notConnected => "peer is not connected"
  | invalidChannel channel => "channel " ++ toString channel.toNat ++ " is not open on this peer"
  | unknownPeer id => "no peer with id " ++ toString id.toNat
  | packetTooLarge length maximum =>
    "packet of " ++ toString length ++ " bytes exceeds the " ++ toString maximum ++ " byte limit"
  | hostFull => "all peer slots are in use"
  | hostClosed => "host is no longer running"
  | io failure => "i/o error: " ++ failure.message

end TransportError

end ReliableDatagram
