import ReliableDatagram.Bytes

/-!
# Reassembly

A packet too large for one datagram travels as numbered fragments. A reassembly
keeps the first arrival of every number; its bytes are the whole packet with each
kept fragment written at its place and zeros where none was.
-/

namespace ReliableDatagram

structure Piece where
  number : UInt32
  /-- Where its bytes belong. -/
  offset : Nat
  payload : Bytes
deriving DecidableEq, Repr, Inhabited

structure Reassembly where
  total : Nat
  count : UInt32
  remaining : UInt32
  /-- The fragments kept so far, the latest first. -/
  pieces : List Piece
deriving DecidableEq, Repr, Inhabited

namespace Reassembly

def empty (total : Nat) (count : UInt32) : Reassembly where
  total := total
  count := count
  remaining := count
  pieces := []

/-- A fragment of a packet with this size and number of fragments belongs here. -/
def fits (reassembly : Reassembly) (total : Nat) (count : UInt32) : Bool :=
  reassembly.total == total && reassembly.count == count

def holds (reassembly : Reassembly) (number : UInt32) : Bool :=
  reassembly.pieces.any fun piece ↦ piece.number == number

/-- Keeps a fragment, unless one with its number has arrived before. -/
def insert (reassembly : Reassembly) (number : UInt32) (offset : Nat) (payload : Bytes) :
    Bool × Reassembly :=
  if reassembly.holds number then (false, reassembly)
  else (true, { reassembly with
    remaining := reassembly.remaining - 1
    pieces := ⟨number, offset, payload⟩ :: reassembly.pieces })

def isComplete (reassembly : Reassembly) : Bool := reassembly.remaining == 0

/-- The bytes of the packet as far as they have arrived. -/
def bytes (reassembly : Reassembly) : Bytes :=
  reassembly.pieces.foldr (fun piece whole ↦ whole.overwrite piece.offset piece.payload)
    (List.replicate reassembly.total 0)

end Reassembly

end ReliableDatagram
