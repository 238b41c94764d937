import ReliableDatagram.Host.Event
import ReliableDatagram.Peer.Basic

/-!
# The table of slots

A host keeps its connections in numbered slots. The number of a slot is what the other
end puts into the header of its datagrams, so there are never more slots than numbers,
and the number that stands for no slot is not among them. A new connection gets the
lowest vacant slot.
-/

namespace ReliableDatagram

structure SlotTable where
  slots : Array (Option Peer)
  /-- The vacant slots in ascending order. -/
  vacant : List Nat
  /-- The settings that new connections get. -/
  settings : Settings
deriving Repr

namespace SlotTable

/-- A table of vacant slots, as many as asked for but no more than there are numbers. -/
def empty (capacity : Nat) (settings : Settings) : SlotTable :=
  let capacity := min capacity unassignedPeer.toNat
  ⟨Array.replicate capacity none, List.range capacity, settings⟩

def capacity (table : SlotTable) : Nat := table.slots.size

/-- How many slots are occupied. -/
def size (table : SlotTable) : Nat := table.slots.size - table.vacant.length

def get? (table : SlotTable) (id : PeerId) : Option Peer := (table.slots[id.index]?).join

def set (table : SlotTable) (id : PeerId) (peer : Peer) : SlotTable :=
  { table with slots := table.slots.setIfInBounds id.index (some peer) }

/-- Puts a fresh connection into the lowest vacant slot. -/
def allocate (table : SlotTable) : Option (PeerId × Peer × SlotTable) :=
  match table.vacant with
  | [] => none
  | index :: rest =>
    let id := UInt16.ofNat index
    let peer := Peer.vacant id table.settings
    some (id, peer, { table with vacant := rest }.set id peer)

def insertAscending (index : Nat) : List Nat → List Nat
  | [] => [index]
  | next :: rest =>
    if index < next then index :: next :: rest else next :: insertAscending index rest

/-- Frees a slot; one that is vacant stays so. -/
def release (table : SlotTable) (id : PeerId) : SlotTable :=
  match table.get? id with
  | none => table
  | some _ =>
    { table with
      slots := table.slots.setIfInBounds id.index none
      vacant := insertAscending id.index table.vacant }

def occupied (table : SlotTable) : List (PeerId × Peer) :=
  (List.range table.capacity).filterMap fun index ↦
    (table.get? (UInt16.ofNat index)).map fun peer ↦ (UInt16.ofNat index, peer)

def matchesConnection (address : Address) (challenge : UInt32) (peer : Peer) : Bool :=
  peer.state != .disconnected && peer.address == some address && peer.challenge == challenge

def hasConnection (table : SlotTable) (address : Address) (challenge : UInt32) : Bool :=
  table.slots.any fun slot ↦ slot.any (matchesConnection address challenge)

def connectedCount (table : SlotTable) : Nat :=
  table.slots.countP fun slot ↦ slot.any (·.state == .connected)

/-! ## What the operations do to a slot -/

@[simp] theorem capacity_set (table : SlotTable) (id : PeerId) (peer : Peer) :
    (table.set id peer).capacity = table.capacity := by
  simp [set, capacity]

@[simp] theorem vacant_set (table : SlotTable) (id : PeerId) (peer : Peer) :
    (table.set id peer).vacant = table.vacant := rfl

theorem get?_set_self {table : SlotTable} {id : PeerId} (peer : Peer)
    (h : id.index < table.capacity) : (table.set id peer).get? id = some peer := by
  simp only [capacity] at h
  simp [set, get?, h]

theorem get?_set_of_ne (table : SlotTable) {id other : PeerId} (peer : Peer) (h : other ≠ id) :
    (table.set id peer).get? other = table.get? other := by
  have h' : id.index ≠ other.index := fun e ↦ h (UInt16.toNat_inj.mp e.symm)
  simp [set, get?, h']

theorem get?_release_of_ne (table : SlotTable) {id other : PeerId} (h : other ≠ id) :
    (table.release id).get? other = table.get? other := by
  have h' : id.index ≠ other.index := fun e ↦ h (UInt16.toNat_inj.mp e.symm)
  unfold release
  split
  · rfl
  · simp [get?, h']

theorem get?_release_self (table : SlotTable) (id : PeerId) :
    (table.release id).get? id = none := by
  unfold release
  split
  · assumption
  · simp only [get?, Array.getElem?_setIfInBounds, if_true]
    split <;> rfl

end SlotTable

end ReliableDatagram
