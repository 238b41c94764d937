import ReliableDatagram.Host.SlotTable

/-!
# Allocation of bandwidth

Once per interval a host shares out its bandwidth. What it may send is shared by
capping the throttles on unreliable traffic: all connections get the throttle at which
their traffic together meets the host's budget, except that one whose other end cannot
receive that much gets the throttle that meets its own budget, which leaves more to
the others. When the caps or the connections have changed, what the host can receive is
shared as well and announced: all get an equal share, except that one whose other end
sends less gets just that. A bandwidth of 0 is unlimited.
-/

namespace ReliableDatagram

/-- When bandwidth was last shared, and whether the incoming one is to be shared anew. -/
structure Allocator where
  epoch : Stamp := 0
  /-- The incoming bandwidth is to be shared anew. -/
  recalculate : Bool := false
deriving DecidableEq, Repr, Inhabited

namespace Allocator

/-- The greatest 64-bit number, which stands for bandwidth without limit. -/
def unlimited : Nat := 18446744073709551615

def requestRecalculation (allocator : Allocator) : Allocator :=
  { allocator with recalculate := true }

def isDue (allocator : Allocator) (now : Stamp) (interval : UInt32) : Bool :=
  decide (interval ≤ Stamp.distance now allocator.epoch)

/-- Visits the occupied slots in order with a running state. -/
def sweep {β : Type} (visit : β → Peer → β × Peer) :
    β → List (Option Peer) → β × List (Option Peer)
  | state, [] => (state, [])
  | state, none :: rest =>
    let (state, rest) := sweep visit state rest
    (state, none :: rest)
  | state, some peer :: rest =>
    let (state, peer) := visit state peer
    let (state, rest) := sweep visit state rest
    (state, some peer :: rest)

def updateConnected (change : Peer → Peer) (slots : List (Option Peer)) : List (Option Peer) :=
  slots.map fun slot ↦ slot.map fun peer ↦ if peer.state = .connected then change peer else peer

/-! ## Outgoing bandwidth -/

/-- What is left to share among the connections without a cap of their own. -/
structure Budget where
  /-- The number of those connections. -/
  peers : Nat
  bandwidth : Nat
  data : Nat
  /-- The last sweep capped a connection. -/
  adjusted : Bool
deriving DecidableEq, Repr

structure Period where
  now : Stamp
  /-- Milliseconds since the last one. -/
  elapsed : Nat
  /-- The throttle value at which all traffic passes. -/
  scale : Nat

/-- What a bandwidth in bytes per second amounts to over the period. -/
def Period.bytes (period : Period) (bandwidth : UInt32) : Nat :=
  bandwidth.toNat * period.elapsed / 1000

/-- The throttle at which the queued data meets the budget. -/
def Budget.throttle (budget : Budget) (scale : Nat) : Nat :=
  if budget.data ≤ budget.bandwidth then scale
  else min (budget.bandwidth * scale) unlimited / budget.data

/-- Caps a connection whose other end cannot receive what the common throttle lets through. -/
def capPeer (period : Period) (throttle : Nat) (budget : Budget) (peer : Peer) : Budget × Peer :=
  if peer.state ≠ .connected ∨ peer.incomingBandwidth = 0 ∨ peer.outgoingEpoch = period.now then
    (budget, peer)
  else
    let allowed := period.bytes peer.incomingBandwidth
    let data := peer.outgoingTotal.toNat
    if throttle * data / max period.scale 1 ≤ allowed then (budget, peer)
    else
      let limit := max (allowed * period.scale / data) 1
      ({ peers := budget.peers - 1
         bandwidth := budget.bandwidth - allowed
         data := budget.data - data
         adjusted := true },
        { peer.setThrottleLimit (UInt32.ofNat limit) with outgoingEpoch := period.now })

/-- Caps connections until the common throttle suits all that are left; each sweep but the
last caps one, so `rounds` need not exceed their number by more than one. -/
def capPeers (period : Period) :
    Nat → Nat → Budget → List (Option Peer) → Nat × Budget × List (Option Peer)
  | 0, throttle, budget, slots => (throttle, budget, slots)
  | rounds + 1, throttle, budget, slots =>
    if budget.peers = 0 ∨ !budget.adjusted then (throttle, budget, slots)
    else
      let throttle := budget.throttle period.scale
      let (budget, slots) :=
        sweep (capPeer period throttle) { budget with adjusted := false } slots
      capPeers period rounds throttle budget slots

def shareOutgoing (period : Period) (outgoing : UInt32) (slots : List (Option Peer)) :
    List (Option Peer) :=
  let connected := slots.reduceOption.filter (·.state == .connected)
  let budget : Budget := {
    peers := connected.length
    bandwidth := if outgoing = 0 then unlimited else period.bytes outgoing
    data := connected.foldr (fun peer data ↦ peer.outgoingTotal.toNat + data) 0
    adjusted := true }
  let (throttle, budget, slots) := capPeers period (budget.peers + 1) period.scale budget slots
  if budget.peers = 0 then slots
  else updateConnected (fun peer ↦
    if peer.outgoingEpoch = period.now then peer
    else peer.setThrottleLimit (UInt32.ofNat throttle)) slots

/-! ## Incoming bandwidth -/

/-- Sets a connection aside whose other end sends less than an equal share. -/
def settlePeer (now : Stamp) (share : Nat) (budget : Budget) (peer : Peer) : Budget × Peer :=
  let outgoing := peer.outgoingBandwidth.toNat
  if peer.state ≠ .connected ∨ peer.incomingEpoch = now ∨ outgoing = 0 ∨ share ≤ outgoing then
    (budget, peer)
  else
    ({ budget with
        peers := budget.peers - 1
        bandwidth := budget.bandwidth - outgoing
        adjusted := true },
      { peer with incomingEpoch := now })

def settlePeers (now : Stamp) :
    Nat → Nat → Budget → List (Option Peer) → Nat × List (Option Peer)
  | 0, share, _, slots => (share, slots)
  | rounds + 1, share, budget, slots =>
    if budget.peers = 0 ∨ !budget.adjusted then (share, slots)
    else
      let share := budget.bandwidth / budget.peers
      let (budget, slots) := sweep (settlePeer now share) { budget with adjusted := false } slots
      settlePeers now rounds share budget slots

/-- Shares the incoming bandwidth and announces to each connection what it gets. -/
def shareIncoming (context : Context) (slots : List (Option Peer)) : List (Option Peer) :=
  let peers := (slots.reduceOption.filter (·.state == .connected)).length
  let (share, slots) :=
    if context.incomingBandwidth = 0 then (0, slots)
    else settlePeers context.now (peers + 1) 0
      { peers := peers, bandwidth := context.incomingBandwidth.toNat, data := 0, adjusted := true }
      slots
  updateConnected (fun peer ↦
    let incoming :=
      if peer.incomingEpoch = context.now then peer.outgoingBandwidth else Word.ofNatSat share
    peer.announceBandwidth incoming context.outgoingBandwidth) slots

/-! ## The whole allocation -/

def run (allocator : Allocator) (context : Context) (scale : UInt32) (table : SlotTable) :
    Allocator × SlotTable :=
  if table.connectedCount = 0 then ({ allocator with epoch := context.now }, table)
  else
    let period : Period := {
      now := context.now
      elapsed := (Stamp.distance context.now allocator.epoch).toNat
      scale := scale.toNat }
    let slots := shareOutgoing period context.outgoingBandwidth table.slots.toList
    let slots := if allocator.recalculate then shareIncoming context slots else slots
    ({ epoch := context.now, recalculate := false },
      { table with slots := (slots.map (·.map Peer.resetTotals)).toArray })

end Allocator

end ReliableDatagram
