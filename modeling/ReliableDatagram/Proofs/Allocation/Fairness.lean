import ReliableDatagram.Proofs.Allocation.Range
import Mathlib.Algebra.BigOperators.Ring.List

/-!
# Fairness of the incoming shares

Where a host shares its incoming bandwidth anew, each connection is told what it may send: the
common share, or all that its other end sends at most if that is less. The allowances add up to
no more than what the host can receive. But an allowance of 0 is no limit, and a host that can
receive less bytes than it has connections announces just that.
-/

namespace ReliableDatagram

namespace Allocator

variable {allocator : Allocator} {context : Context} {scale : UInt32} {table : SlotTable}
  {now : Stamp} {share whole : Nat} {budget : Budget} {peer middle next : Peer}
  {slots shared settled : List (Option Peer)}

/-! ## What a connection is told -/

/-- What a connection gets where all can have a share: the share, or all that its other end sends
if that is less. -/
def fairShare (share : UInt32) (peer : Peer) : UInt32 :=
  if peer.outgoingBandwidth ≠ 0 ∧ peer.outgoingBandwidth < share then peer.outgoingBandwidth
  else share

/-- What a connection is told. One that was set aside at this very time before is told once more
what its other end sends. -/
def allowance (now : Stamp) (share : UInt32) (peer : Peer) : UInt32 :=
  if peer.incomingEpoch = now then peer.outgoingBandwidth else fairShare share peer

/-- The command that tells a connection what it may send and what it may receive. -/
def announcement (peer : Peer) (incoming outgoing : UInt32) : Outgoing :=
  { command := {
      channel := controlChannel
      flags := Command.acknowledgeFlag
      sequence := peer.controlSequence + 1
      body := .bandwidthLimit incoming outgoing } }

/-- A connection is told its allowance, and nothing else is queued. -/
structure Tells (allowance : Peer → UInt32) (outgoing : UInt32) (peer next : Peer) : Prop where
  reliable : next.reliable = peer.reliable ++
    if peer.state = .connected then [announcement peer (allowance peer) outgoing] else []
  unreliable : next.unreliable = peer.unreliable
  acknowledgements : next.acknowledgements = peer.acknowledgements

theorem Tells.congr {allowance other : Peer → UInt32} {outgoing : UInt32}
    (h : Tells allowance outgoing peer next)
    (hsame : peer.state = .connected → allowance peer = other peer) :
    Tells other outgoing peer next := by
  refine ⟨?_, h.unreliable, h.acknowledgements⟩
  rw [h.reliable]
  split
  · rename_i hstate
    rw [hsame hstate]
  · rfl

theorem fairShare_eq_zero_iff (share : UInt32) (peer : Peer) :
    fairShare share peer = 0 ↔ share = 0 := by
  unfold fairShare
  split
  · rename_i hless
    refine iff_of_false hless.1 fun hzero ↦ ?_
    rw [hzero, UInt32.lt_iff_toNat_lt] at hless
    exact Nat.not_lt_zero _ hless.2
  · exact Iff.rfl

theorem ofNatSat_eq_zero_iff (share : Nat) : Word.ofNatSat share = 0 ↔ share = 0 := by
  have hzero : (Word.ofNatSat share).toNat = 0 ↔ Word.ofNatSat share = 0 :=
    UInt32.toNat_inj (b := 0)
  rw [← hzero, Word.toNat_ofNatSat, Word.maximum]
  omega

/-- A connection whose other end sends less than the share gets that. -/
theorem Undercuts.fairShare_eq (h : Undercuts now share peer) :
    fairShare (Word.ofNatSat share) peer = peer.outgoingBandwidth := by
  unfold fairShare
  split
  · rfl
  · rename_i hleast
    have hlt := h.lt_share
    have hle : (Word.ofNatSat share).toNat ≤ peer.outgoingBandwidth.toNat := by
      by_contra hgreater
      exact hleast ⟨h.limited, UInt32.lt_iff_toNat_lt.mpr (Nat.lt_of_not_le hgreater)⟩
    have hbound := peer.outgoingBandwidth.toNat_lt
    rw [← UInt32.toNat_inj]
    rw [Word.toNat_ofNatSat, Word.maximum] at hle ⊢
    omega

/-- A connection that can use the share gets the share. -/
theorem Uses.fairShare_eq (h : Uses now share peer) (hopen : peer.incomingEpoch ≠ now) :
    fairShare (Word.ofNatSat share) peer = Word.ofNatSat share := by
  refine if_neg fun ⟨hlimited, hlt⟩ ↦ ?_
  rw [UInt32.lt_iff_toNat_lt, Word.toNat_ofNatSat] at hlt
  rcases h hopen with hzero | hle
  · exact hlimited hzero
  · omega

/-! ## What becomes of a connection -/

/-- A connection is left as it is but for its throttle, or it is set aside as well. -/
def Marks (now : Stamp) (share : Nat) (peer next : Peer) : Prop :=
  ∃ pacing epoch mark, next = { peer with
      pacing := pacing
      outgoingEpoch := epoch
      incomingEpoch := mark } ∧
    (mark = peer.incomingEpoch ∨ mark = now ∧ Undercuts now share peer)

theorem Throttles.marks (h : Throttles peer middle) (hnext : Settles now share middle next) :
    Marks now share peer next := by
  obtain ⟨pacing, epoch, rfl⟩ := h
  cases hnext with
  | kept => exact ⟨pacing, epoch, _, rfl, .inl rfl⟩
  | settled hundercuts =>
    have hpeer : Undercuts now share peer :=
      ⟨hundercuts.connected, hundercuts.unsettled, hundercuts.limited, hundercuts.lt_share⟩
    exact ⟨pacing, epoch, now, rfl, .inr ⟨rfl, hpeer⟩⟩

theorem Marks.state_eq (h : Marks now share peer next) : next.state = peer.state := by
  obtain ⟨pacing, epoch, mark, rfl, -⟩ := h
  rfl

/-- What a connection has become when all have been set aside that need it. -/
structure Ready (now : Stamp) (share : Nat) (peer next : Peer) : Prop where
  marks : Marks now share peer next
  uses : next.state = .connected → Uses now share next

/-- What is announced then is what the connection is due. -/
theorem Ready.announced_eq (h : Ready now share peer middle) (hstate : peer.state = .connected) :
    announced now share middle = allowance now (Word.ofNatSat share) peer := by
  have huses := h.uses (h.marks.state_eq.trans hstate)
  obtain ⟨pacing, epoch, mark, rfl, hmark⟩ := h.marks
  unfold announced allowance
  dsimp only
  rcases hmark with rfl | ⟨rfl, hundercuts⟩
  · by_cases hset : peer.incomingEpoch = now
    · rw [if_pos hset, if_pos hset]
    · have hpeer : Uses now share peer := huses
      rw [if_neg hset, if_neg hset, hpeer.fairShare_eq hset]
  · rw [if_pos rfl, if_neg hundercuts.unsettled, hundercuts.fairShare_eq]

def told (now : Stamp) (share : Nat) (outgoing : UInt32) (peer : Peer) : Peer :=
  (if peer.state = .connected then peer.announceBandwidth (announced now share peer) outgoing
  else peer).resetTotals

/-- The announcement is queued with the next number of the connection. -/
theorem Ready.tells (h : Ready now share peer middle) (outgoing : UInt32) :
    Tells (allowance now (Word.ofNatSat share)) outgoing peer
      (told now share outgoing middle) := by
  unfold told
  have hannounced := h.announced_eq
  obtain ⟨pacing, epoch, mark, rfl, -⟩ := h.marks
  by_cases hstate : peer.state = .connected
  · rw [if_pos hstate, hannounced hstate, Peer.announceBandwidth, Peer.queueControl_eq]
    exact ⟨by rw [if_pos hstate]; rfl, rfl, rfl⟩
  · rw [if_neg hstate]
    exact ⟨by rw [if_neg hstate, List.append_nil]; rfl, rfl, rfl⟩

/-! ## What all connections are told -/

/-- What is announced adds up to no more than the whole. -/
theorem Shares.announced_le (h : Shares now whole share budget slots) :
    total (fun peer ↦ (announced now share peer).toNat) slots ≤ whole := by
  obtain ⟨⟨hpeers, hbandwidth⟩, haffords⟩ := h
  have hone (peer : Peer) : (announced now share peer).toNat ≤
      aside Peer.incomingEpoch now (·.outgoingBandwidth.toNat) peer +
        share * among Peer.incomingEpoch now (fun _ ↦ 1) peer := by
    unfold announced aside among
    split
    · exact Nat.le_add_right _ _
    · rw [Word.toNat_ofNatSat, Nat.zero_add, Nat.mul_one]
      exact Nat.min_le_left _ _
  calc
    total (fun peer ↦ (announced now share peer).toNat) slots ≤
        total (fun peer ↦ aside Peer.incomingEpoch now (·.outgoingBandwidth.toNat) peer +
          share * among Peer.incomingEpoch now (fun _ ↦ 1) peer) slots :=
      total_le_total fun peer _ ↦ hone peer
    _ = total (aside Peer.incomingEpoch now (·.outgoingBandwidth.toNat)) slots +
        share * total (among Peer.incomingEpoch now fun _ ↦ 1) slots := by
      unfold total
      rw [← List.sum_map_mul_left, ← List.sum_map_add]
    _ ≤ total (aside Peer.incomingEpoch now (·.outgoingBandwidth.toNat)) slots +
        budget.bandwidth :=
      Nat.add_le_add_left ((Nat.mul_le_mul_left share hpeers).trans haffords) _
    _ = whole := by rw [Nat.add_comm, hbandwidth]

theorem slotwise_ready (hthrottles : SlotTable.Slotwise Throttles slots shared)
    (hlevels : Levels now whole shared share settled) :
    SlotTable.Slotwise (Ready now share) slots settled := by
  have hmarks := hthrottles.comp hlevels.settles fun _ _ _ h hnext ↦ h.marks hnext
  apply (slotwise_mem hmarks).imp
  intro peer next h
  exact ⟨h.1, fun hstate ↦ hlevels.uses next (mem_connected.mpr ⟨h.2.2, hstate⟩)⟩

theorem total_allowance (h : SlotTable.Slotwise (Ready now share) slots settled) :
    total (fun peer ↦ (allowance now (Word.ofNatSat share) peer).toNat) slots =
      total (fun peer ↦ (announced now share peer).toNat) settled := by
  apply total_congr h fun _ _ hready ↦ hready.marks.state_eq
  intro peer next hready hstate
  rw [hready.announced_eq hstate]

theorem map_resetTotals_updateConnected (now : Stamp) (share : Nat) (outgoing : UInt32)
    (slots : List (Option Peer)) :
    (updateConnected (fun peer ↦ peer.announceBandwidth (announced now share peer) outgoing)
      slots).map (·.map Peer.resetTotals) = slots.map (·.map (told now share outgoing)) := by
  rw [updateConnected, List.map_map]
  simp only [Function.comp_def, Option.map_map]
  rfl

theorem slotwise_tells (h : SlotTable.Slotwise (Ready now share) slots settled)
    (outgoing : UInt32) : SlotTable.Slotwise (Tells (allowance now (Word.ofNatSat share)) outgoing)
      slots (settled.map (·.map (told now share outgoing))) := by
  have htold : SlotTable.Slotwise (fun peer next ↦ told now share outgoing peer = next) settled
      (settled.map (·.map (told now share outgoing))) :=
    SlotTable.slotwise_map (fun _ ↦ rfl) settled
  refine h.comp htold ?_
  rintro peer middle _ hready rfl
  exact hready.tells outgoing

/-- If no connection stands, none is told anything. -/
theorem slotwise_tells_self (hnone : connected slots = []) (change : Peer → UInt32)
    (outgoing : UInt32) : SlotTable.Slotwise (Tells change outgoing) slots slots := by
  have hsame : SlotTable.Slotwise (fun peer next ↦ peer = next) slots slots :=
    .refl (fun _ ↦ rfl) slots
  apply (slotwise_mem hsame).imp
  rintro peer next ⟨rfl, hmem, -⟩
  have hother : peer.state ≠ .connected := fun hstate ↦ by
    have hpeer : peer ∈ connected slots := mem_connected.mpr ⟨hmem, hstate⟩
    rw [hnone] at hpeer
    cases hpeer
  exact ⟨by rw [if_neg hother, List.append_nil], rfl, rfl⟩

/-- A limited host finds one share for all connections and tells each its allowance. The share
is 0 only if there is less to share than there are connections. -/
theorem shareIncoming_tells (hthrottles : SlotTable.Slotwise Throttles slots shared)
    (hlimited : context.incomingBandwidth ≠ 0) (hsome : 0 < (connected slots).length) :
    ∃ share : UInt32, context.incomingBandwidth.toNat / (connected slots).length ≤ share.toNat ∧
      (share = 0 ↔ context.incomingBandwidth.toNat < (connected slots).length) ∧
      total (fun peer ↦ (allowance context.now share peer).toNat) slots ≤
        context.incomingBandwidth.toNat +
          total (aside Peer.incomingEpoch context.now (·.outgoingBandwidth.toNat)) slots ∧
      SlotTable.Slotwise (Tells (allowance context.now share) context.outgoingBandwidth) slots
        ((shareIncoming context shared).map (·.map Peer.resetTotals)) := by
  have hstate (peer next : Peer) (h : Throttles peer next) : next.state = peer.state := h.state_eq
  have hcount : (connected slots).length = (connected shared).length :=
    (connected_of_slotwise hthrottles hstate).length_eq
  have hwhole : total (aside Peer.incomingEpoch context.now (·.outgoingBandwidth.toNat)) slots =
      total (aside Peer.incomingEpoch context.now (·.outgoingBandwidth.toNat)) shared := by
    apply total_congr hthrottles hstate
    rintro peer next ⟨pacing, epoch, rfl⟩ -
    rfl
  rw [hcount] at hsome ⊢
  obtain ⟨share, settled, hfloor, hzero, hlevels, hannounced⟩ :=
    shareIncoming_levels hlimited hsome
  have hready := slotwise_ready hthrottles hlevels
  refine ⟨Word.ofNatSat share, ?_, (ofNatSat_eq_zero_iff share).trans hzero, ?_, ?_⟩
  · have hle := Nat.div_le_self context.incomingBandwidth.toNat (connected shared).length
    have hbound := context.incomingBandwidth.toNat_lt
    rw [Word.toNat_ofNatSat, Word.maximum]
    omega
  · rw [hwhole, total_allowance hready]
    obtain ⟨budget, hshares⟩ := hlevels.shares
    exact hshares.announced_le
  · rw [hannounced, map_resetTotals_updateConnected]
    exact slotwise_tells hready context.outgoingBandwidth

/-- So does an allocation that is to share the incoming bandwidth anew. -/
theorem run_tells (allocator : Allocator) (context : Context) (scale : UInt32) {table : SlotTable}
    (hlimited : context.incomingBandwidth ≠ 0) (hrecalculate : allocator.recalculate = true)
    (hsome : table.connected ≠ []) :
    ∃ share : UInt32, context.incomingBandwidth.toNat / table.connected.length ≤ share.toNat ∧
      (share = 0 ↔ context.incomingBandwidth.toNat < table.connected.length) ∧
      total (fun peer ↦ (allowance context.now share peer).toNat) table.slots.toList ≤
        context.incomingBandwidth.toNat +
          total (aside Peer.incomingEpoch context.now (·.outgoingBandwidth.toNat))
            table.slots.toList ∧
      SlotTable.Slotwise (Tells (allowance context.now share) context.outgoingBandwidth)
        table.slots.toList (allocator.run context scale table).2.slots.toList := by
  have hslots := run_slots allocator context scale hsome
  dsimp only at hslots
  rw [hslots, if_pos hrecalculate]
  exact shareIncoming_tells (shareOutgoing_throttles _ _ _) hlimited
    (List.length_pos_of_ne_nil hsome)

/-- Where a limited host shares its incoming bandwidth anew, and no connection has been set aside
at this very time before, the allocation ends without leaving the range of its numbers, and each
connection is told its fair share once. There is one share for all, at least the equal part of
each, and the allowances add up to no more than the host can receive. -/
theorem run_fairShare (allocator : Allocator) (context : Context) (scale : UInt32)
    (table : SlotTable) (hcapacity : table.capacity ≤ 2 ^ 16)
    (hlimited : context.incomingBandwidth ≠ 0) (hrecalculate : allocator.recalculate = true)
    (hunsettled : ∀ peer ∈ table.connected, peer.incomingEpoch ≠ context.now) :
    let after := (allocator.run context scale table).2
    allocator.run? context scale table = some (allocator.run context scale table) ∧
      ∃ share : UInt32, context.incomingBandwidth.toNat / table.connected.length ≤ share.toNat ∧
        SlotTable.Slotwise (Tells (fairShare share) context.outgoingBandwidth)
          table.slots.toList after.slots.toList ∧
        (table.connected.map fun peer ↦ (fairShare share peer).toNat).sum ≤
          context.incomingBandwidth.toNat := by
  intro after
  refine ⟨run?_eq allocator context scale hcapacity, ?_⟩
  by_cases hsome : table.connected = []
  · have hafter : after = table := run_of_connected_eq_nil allocator context scale hsome
    rw [hafter, hsome]
    exact ⟨0, Nat.le_of_eq (Nat.div_zero _), slotwise_tells_self hsome _ _, Nat.zero_le _⟩
  · obtain ⟨share, hfloor, -, hsum, htells⟩ := run_tells allocator context scale hlimited
      hrecalculate hsome
    have hdue (peer : Peer) (hpeer : peer ∈ table.connected) :
        allowance context.now share peer = fairShare share peer := if_neg (hunsettled peer hpeer)
    have hnobody : total (aside Peer.incomingEpoch context.now (·.outgoingBandwidth.toNat))
        table.slots.toList = 0 := total_eq_zero fun peer hpeer ↦ if_neg (hunsettled peer hpeer)
    rw [hnobody, Nat.add_zero] at hsum
    refine ⟨share, hfloor, ?_, ?_⟩
    · apply (slotwise_mem htells).imp
      rintro peer next ⟨htells, hmem, -⟩
      exact htells.congr fun hstate ↦ hdue peer (mem_connected.mpr ⟨hmem, hstate⟩)
    · calc
        (table.connected.map fun peer ↦ (fairShare share peer).toNat).sum =
            total (fun peer ↦ (allowance context.now share peer).toNat) table.slots.toList := by
          unfold total
          congr 1
          apply List.map_congr_left
          intro peer hpeer
          rw [hdue peer hpeer]
        _ ≤ context.incomingBandwidth.toNat := hsum

/-- A host that can receive 10000 bytes in a second, with two connections: the other end of one of
them sends 1000 at most. -/
def pair : SlotTable where
  slots := #[
    some { Peer.vacant 0 {} with state := .connected },
    some { Peer.vacant 1 {} with state := .connected, outgoingBandwidth := 1000 }]
  vacant := []
  settings := {}

theorem run_fairShare_pair :
    pair.connected.map (fairShare 9000) = [9000, 1000] ∧
      ∃ share : UInt32, 10000 / 2 ≤ share.toNat ∧
        SlotTable.Slotwise (Tells (fairShare share) 5000) pair.slots.toList
          (run { recalculate := true } ⟨1000, 10000, 5000⟩ 32 pair).2.slots.toList ∧
        (pair.connected.map fun peer ↦ (fairShare share peer).toNat).sum ≤ 10000 :=
  have h := run_fairShare { recalculate := true } ⟨1000, 10000, 5000⟩ 32 pair
    (by decide) (by decide) (by decide) (by decide)
  ⟨by decide, h.2⟩

/-- A host with a limited incoming bandwidth that shares it anew announces no limit exactly to the
connections of which there are more than bytes to share, and to those that were set aside at this
very time before although their other ends send without limit. -/
theorem run_announces_zero_iff (allocator : Allocator) (context : Context) (scale : UInt32)
    (table : SlotTable) (id : PeerId) (peer : Peer) (hlimited : context.incomingBandwidth ≠ 0)
    (hrecalculate : allocator.recalculate = true) (hpeer : table.get? id = some peer)
    (hstate : peer.state = .connected) :
    ∃ next incoming, (allocator.run context scale table).2.get? id = some next ∧
      next.reliable = peer.reliable ++ [announcement peer incoming context.outgoingBandwidth] ∧
      (incoming = 0 ↔ if peer.incomingEpoch = context.now then peer.outgoingBandwidth = 0
        else context.incomingBandwidth.toNat < table.connected.length) := by
  have hmem := mem_connected_of_get? hpeer hstate
  obtain ⟨share, -, hzero, -, htells⟩ := run_tells allocator context scale hlimited
    hrecalculate (List.ne_nil_of_mem hmem)
  obtain ⟨next, hnext, htells⟩ := exists_get?_of_slotwise htells hpeer
  refine ⟨next, allowance context.now share peer, hnext, ?_, ?_⟩
  · rw [htells.reliable, if_pos hstate]
  · unfold allowance
    split
    · rfl
    · rw [fairShare_eq_zero_iff, hzero]

/-- With a single byte for two connections, neither is limited. -/
theorem run_announces_zero_pair : ∃ peer next, pair.get? 1 = some peer ∧
    (run { recalculate := true } ⟨1000, 1, 0⟩ 32 pair).2.get? 1 = some next ∧
      next.reliable = [announcement peer 0 0] := by
  obtain ⟨next, incoming, hnext, hreliable, hzero⟩ := run_announces_zero_iff
    { recalculate := true } ⟨1000, 1, 0⟩ 32 pair 1
    { Peer.vacant 1 {} with state := .connected, outgoingBandwidth := 1000 }
    (by decide) rfl rfl rfl
  have hunlimited : incoming = 0 := hzero.mpr (by decide)
  exact ⟨_, next, rfl, hnext, hunlimited ▸ hreliable⟩

end Allocator

end ReliableDatagram
