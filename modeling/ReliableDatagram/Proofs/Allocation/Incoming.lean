import ReliableDatagram.Proofs.Allocation.Sweeps
import ReliableDatagram.Proofs.Peer.Queueing

/-!
# The shares of the incoming bandwidth

An equal share only grows while connections are set aside: each of them takes less than the
share, so what is left suffices to give the others the share that they had. So a connection that
was set aside sends less than the last share as well, and the shares that are announced add up
to no more than what the host can receive.
-/

namespace ReliableDatagram

namespace Allocator

variable {now : Stamp} {share shareAfter floor rounds whole : Nat} {budget : Budget}
  {peer next : Peer} {slots visited rest : List (Option Peer)}

/-! ## Setting a connection aside -/

/-- A connection can use a share, unless it has been set aside. -/
def Uses (now : Stamp) (share : Nat) (peer : Peer) : Prop :=
  peer.incomingEpoch ≠ now → peer.outgoingBandwidth = 0 ∨ share ≤ peer.outgoingBandwidth.toNat

/-- The other end of a connection sends less than a share. -/
structure Undercuts (now : Stamp) (share : Nat) (peer : Peer) : Prop where
  connected : peer.state = .connected
  unsettled : peer.incomingEpoch ≠ now
  limited : peer.outgoingBandwidth ≠ 0
  lt_share : peer.outgoingBandwidth.toNat < share

def settled (now : Stamp) (peer : Peer) : Peer := { peer with incomingEpoch := now }

/-- A connection is set aside exactly if its other end sends less than the share. -/
theorem settlePeer_cases (now : Stamp) (share : Nat) (budget : Budget) (peer : Peer) :
    (peer.state = .connected → Uses now share peer) ∧
        settlePeer now share budget peer = (budget, peer) ∨
      Undercuts now share peer ∧
        settlePeer now share budget peer =
          ({ budget with
              peers := budget.peers - 1
              bandwidth := budget.bandwidth - peer.outgoingBandwidth.toNat
              adjusted := true }, settled now peer) := by
  have hzero : peer.outgoingBandwidth.toNat = 0 ↔ peer.outgoingBandwidth = 0 :=
    UInt32.toNat_inj (b := 0)
  unfold settlePeer
  dsimp only
  split
  · rename_i hskipped
    refine .inl ⟨fun hstate hunsettled ↦ ?_, rfl⟩
    rcases hskipped with hother | hsettled | hunlimited | hle
    · exact absurd hstate hother
    · exact absurd hsettled hunsettled
    · exact .inl (hzero.mp hunlimited)
    · exact .inr hle
  · rename_i hopen
    rw [not_or, not_or, not_or, not_not] at hopen
    obtain ⟨hstate, hunsettled, hlimited, hlt⟩ := hopen
    exact .inr ⟨⟨hstate, hunsettled, mt hzero.mpr hlimited, Nat.lt_of_not_le hlt⟩, rfl⟩

inductive Settles (now : Stamp) (share : Nat) (peer : Peer) : Peer → Prop where
  | kept : Settles now share peer peer
  | settled (h : Undercuts now share peer) : Settles now share peer (settled now peer)

theorem Settles.mono (h : Settles now share peer next) (hle : share ≤ shareAfter) :
    Settles now shareAfter peer next := by
  cases h with
  | kept => exact .kept
  | settled h =>
    exact .settled ⟨h.connected, h.unsettled, h.limited, Nat.lt_of_lt_of_le h.lt_share hle⟩

theorem Settles.trans {last : Peer} (h : Settles now share peer next)
    (hnext : Settles now share next last) : Settles now share peer last := by
  cases h with
  | kept => exact hnext
  | settled h =>
    cases hnext with
    | kept => exact .settled h
    | settled hagain => exact absurd rfl hagain.unsettled

theorem settlePeer_settles (now : Stamp) (share : Nat) (budget : Budget) (peer : Peer) :
    Settles now share peer (settlePeer now share budget peer).2 := by
  obtain ⟨-, heq⟩ | ⟨hundercuts, heq⟩ := settlePeer_cases now share budget peer
  · rw [heq]
    exact .kept
  · rw [heq]
    exact .settled hundercuts

/-! ## Setting all connections aside that need it -/

/-- What is left has room for the connections that have not been set aside, and with what the
others send it makes up the whole. -/
structure Leaves (now : Stamp) (whole : Nat) (budget : Budget) (slots : List (Option Peer)) :
    Prop where
  peers : total (among Peer.incomingEpoch now fun _ ↦ 1) slots ≤ budget.peers
  bandwidth : budget.bandwidth +
    total (aside Peer.incomingEpoch now (·.outgoingBandwidth.toNat)) slots = whole

/-- What is left suffices to give each of the others a share. -/
def Budget.Affords (budget : Budget) (share : Nat) : Prop := share * budget.peers ≤ budget.bandwidth

/-- What a sweep with one share keeps. -/
def Shares (now : Stamp) (whole share : Nat) (budget : Budget) (slots : List (Option Peer)) :
    Prop :=
  Leaves now whole budget slots ∧ budget.Affords share

/-- A connection that is set aside leaves at least the share to each of the others. -/
theorem Shares.settle (h : Shares now whole share budget (visited ++ some peer :: rest))
    (hundercuts : Undercuts now share peer) :
    0 < budget.peers ∧ Shares now whole share
      { budget with
        peers := budget.peers - 1
        bandwidth := budget.bandwidth - peer.outgoingBandwidth.toNat
        adjusted := true } (visited ++ some (settled now peer) :: rest) := by
  obtain ⟨⟨hpeers, hbandwidth⟩, haffords⟩ := h
  have hstate := hundercuts.connected
  have hsettled : (settled now peer).state = .connected := hstate
  have haside : total (aside Peer.incomingEpoch now (·.outgoingBandwidth.toNat))
      (visited ++ some (settled now peer) :: rest) =
        total (aside Peer.incomingEpoch now (·.outgoingBandwidth.toNat))
          (visited ++ some peer :: rest) + peer.outgoingBandwidth.toNat :=
    total_aside_set hstate hsettled hundercuts.unsettled rfl _ visited rest
  rw [total_among_set hstate hsettled hundercuts.unsettled rfl] at hpeers
  have hlt := hundercuts.lt_share
  have hpos : 0 < budget.peers := by omega
  unfold Budget.Affords at haffords
  have hone : share ≤ share * budget.peers := Nat.le_mul_of_pos_right share hpos
  refine ⟨hpos, ⟨Nat.le_sub_of_add_le hpeers, ?_⟩, ?_⟩
  · rw [haside]
    dsimp only
    omega
  · rw [Budget.Affords]
    dsimp only
    rw [Nat.mul_sub, Nat.mul_one]
    omega

/-- A connection is set aside, or it can use the share. -/
theorem settlePeer_visits (now : Stamp) (whole share : Nat) (budget : Budget) (peer : Peer) :
    Visits (Shares now whole share) (Uses now share) budget peer
      (settlePeer now share budget peer) := by
  obtain ⟨huses, heq⟩ | ⟨hundercuts, heq⟩ := settlePeer_cases now share budget peer
  · rw [heq]
    exact .leaves huses
  · rw [heq]
    refine .sets rfl rfl (fun hagain ↦ absurd rfl hagain) ?_
    intro visited rest hshares
    exact hshares.settle hundercuts

/-- Connections have been set aside until all that are left can use the share. -/
structure Levels (now : Stamp) (whole : Nat) (slots : List (Option Peer)) (share : Nat)
    (settled : List (Option Peer)) : Prop where
  shares : ∃ budget, Shares now whole share budget settled
  settles : SlotTable.Slotwise (Settles now share) slots settled
  uses : ∀ peer ∈ connected settled, Uses now share peer

/-- The rounds are over when no connection is left, or none has been set aside in the last one. -/
theorem Shares.stops (h : Shares now whole share budget slots)
    (hstarted : floor ≤ share ∨ budget.adjusted = true ∧ 0 < budget.peers)
    (huses : budget.adjusted = false → ∀ peer ∈ connected slots, Uses now share peer)
    (hover : budget.peers = 0 ∨ budget.adjusted = false) :
    floor ≤ share ∧ Levels now whole slots share slots := by
  rcases hover with hzero | hadjusted
  · have hnone := Nat.le_zero.mp (hzero ▸ h.1.peers)
    refine ⟨hstarted.resolve_right fun hopen ↦ absurd hzero (Nat.ne_of_gt hopen.2),
      ⟨budget, h⟩, .refl (fun _ ↦ .kept) slots, fun peer hpeer hopen ↦ ?_⟩
    exact absurd (stamp_eq_of_total_among hnone hpeer) hopen
  · refine ⟨hstarted.resolve_right fun hopen ↦ ?_, ⟨budget, h⟩, .refl (fun _ ↦ .kept) slots,
      huses hadjusted⟩
    cases hopen.1.symm.trans hadjusted

/-- Another round gives the equal part of what is left to all that can use it. -/
theorem Leaves.sweep (h : Leaves now whole budget slots) :
    let next := budget.bandwidth / budget.peers
    let swept := sweep (settlePeer now next) { budget with adjusted := false } slots
    Shares now whole next swept.1 swept.2 ∧ SlotTable.Slotwise (Settles now next) slots swept.2 ∧
      (∀ peer ∈ connected swept.2, Uses now next peer) ∧
      (swept.1.adjusted = true → swept.1.peers < budget.peers) := by
  intro next swept
  have hstart : Shares now whole next { budget with adjusted := false } slots :=
    ⟨⟨h.peers, h.bandwidth⟩, Nat.div_mul_le_self _ _⟩
  obtain ⟨hshares, huses, -, hfewer⟩ := sweep_sets (settlePeer_visits now whole next) hstart
  rw [List.append_nil] at hshares
  exact ⟨hshares, sweep_slotwise (settlePeer_settles now next) _ slots, huses, hfewer⟩

/-- The rounds end with a share that all connections can use that have not been set aside. The
share grows from round to round, and it never falls below one that can be afforded at first. -/
theorem settlePeers_levels (h : Shares now whole share budget slots)
    (hfloor : budget.Affords floor)
    (hstarted : floor ≤ share ∨ budget.adjusted = true ∧ 0 < budget.peers)
    (huses : budget.adjusted = false → ∀ peer ∈ connected slots, Uses now share peer)
    (hrounds : budget.adjusted = true → budget.peers < rounds) :
    let found := settlePeers now rounds share budget slots
    share ≤ found.1 ∧ floor ≤ found.1 ∧ Levels now whole slots found.1 found.2 := by
  induction rounds generalizing share budget slots with
  | zero =>
    refine ⟨Nat.le_refl share, h.stops hstarted huses (.inr ?_)⟩
    exact Bool.eq_false_iff.mpr fun hadjusted ↦ Nat.not_lt_zero _ (hrounds hadjusted)
  | succ rounds ih =>
    unfold settlePeers
    split
    · rename_i hover
      rw [Bool.not_eq_true'] at hover
      exact ⟨Nat.le_refl share, h.stops hstarted huses hover⟩
    · rename_i hgoes
      rw [not_or, Bool.not_eq_true', Bool.not_eq_false] at hgoes
      have hpos : 0 < budget.peers := Nat.pos_of_ne_zero hgoes.1
      have hgrows : share ≤ budget.bandwidth / budget.peers :=
        (Nat.le_div_iff_mul_le hpos).mpr h.2
      have hreaches : floor ≤ budget.bandwidth / budget.peers :=
        (Nat.le_div_iff_mul_le hpos).mpr hfloor
      obtain ⟨hshares, hsettles, hall, hfewer⟩ := h.1.sweep
      obtain ⟨hle, hfloors, hlevels⟩ := ih hshares
        ((Nat.mul_le_mul_right _ hreaches).trans hshares.2) (.inl hreaches) (fun _ ↦ hall)
        fun hadjusted ↦ by
          have hbelow := hfewer hadjusted
          have hbound := hrounds hgoes.2
          omega
      refine ⟨hgrows.trans hle, hfloors, hlevels.shares, ?_, hlevels.uses⟩
      exact hsettles.comp hlevels.settles fun _ _ _ hfirst hsecond ↦
        (hfirst.mono hle).trans hsecond

/-! ## Announcing the shares -/

theorem settlePeer_zero (now : Stamp) (budget : Budget) (peer : Peer) :
    settlePeer now 0 budget peer = (budget, peer) := by
  obtain ⟨-, heq⟩ | ⟨hundercuts, -⟩ := settlePeer_cases now 0 budget peer
  · exact heq
  · exact absurd hundercuts.lt_share (Nat.not_lt_zero _)

theorem sweep_settlePeer_zero (now : Stamp) (budget : Budget) (slots : List (Option Peer)) :
    sweep (settlePeer now 0) budget slots = (budget, slots) := by
  induction slots with
  | nil => rfl
  | cons slot rest ih =>
    cases slot with
    | none => rw [sweep, ih]
    | some peer =>
      rw [sweep, settlePeer_zero]
      dsimp only
      rw [ih]

/-- Where there is less to share than there are connections, nobody is set aside, and the share
remains 0. -/
theorem settlePeers_zero (now : Stamp) (rounds : Nat) (slots : List (Option Peer))
    (h : budget.bandwidth < budget.peers) : (settlePeers now rounds 0 budget slots).1 = 0 := by
  induction rounds generalizing budget with
  | zero => rfl
  | succ rounds ih =>
    unfold settlePeers
    split
    · rfl
    · dsimp only
      rw [Nat.div_eq_of_lt h, sweep_settlePeer_zero]
      exact ih h

def announced (now : Stamp) (share : Nat) (peer : Peer) : UInt32 :=
  if peer.incomingEpoch = now then peer.outgoingBandwidth else Word.ofNatSat share

/-- What the rounds come to that begin with all connections that stand. The share is 0 only if
there is less to share than there are connections. -/
theorem settlePeers_start (now : Stamp) (bandwidth : Nat) (hsome : 0 < (connected slots).length) :
    let found := settlePeers now ((connected slots).length + 1) 0
      { peers := (connected slots).length
        bandwidth := bandwidth
        data := 0
        adjusted := true } slots
    bandwidth / (connected slots).length ≤ found.1 ∧
      (found.1 = 0 ↔ bandwidth < (connected slots).length) ∧
      Levels now
        (bandwidth + total (aside Peer.incomingEpoch now (·.outgoingBandwidth.toNat)) slots)
        slots found.1 found.2 := by
  intro found
  have hpeers : total (among Peer.incomingEpoch now fun _ ↦ 1) slots ≤
      (connected slots).length := by
    rw [← total_one]
    exact total_le_total fun peer _ ↦ among_le _ _ _ peer
  have hstart : Shares now
      (bandwidth + total (aside Peer.incomingEpoch now (·.outgoingBandwidth.toNat)) slots) 0
      ⟨(connected slots).length, bandwidth, 0, true⟩ slots := by
    refine ⟨⟨hpeers, rfl⟩, ?_⟩
    rw [Budget.Affords, Nat.zero_mul]
    exact Nat.zero_le _
  obtain ⟨-, hfloor, hlevels⟩ := settlePeers_levels hstart
    (Nat.div_mul_le_self bandwidth (connected slots).length) (.inr ⟨rfl, hsome⟩)
    (fun hadjusted ↦ by cases hadjusted) (fun _ ↦ Nat.lt_succ_self _)
  refine ⟨hfloor, ⟨fun hzero ↦ ?_, fun hless ↦ ?_⟩, hlevels⟩
  · have hquotient : bandwidth / (connected slots).length ≤ found.1 := hfloor
    rw [hzero, Nat.le_zero] at hquotient
    exact (Nat.div_eq_zero_iff_lt hsome).mp hquotient
  · apply settlePeers_zero
    exact hless

/-- A limited host finds a share, and announces it to all that can use it. -/
theorem shareIncoming_levels {context : Context} (hlimited : context.incomingBandwidth ≠ 0)
    (hsome : 0 < (connected slots).length) :
    ∃ share settled,
      context.incomingBandwidth.toNat / (connected slots).length ≤ share ∧
        (share = 0 ↔ context.incomingBandwidth.toNat < (connected slots).length) ∧
        Levels context.now (context.incomingBandwidth.toNat +
          total (aside Peer.incomingEpoch context.now (·.outgoingBandwidth.toNat)) slots)
          slots share settled ∧
        shareIncoming context slots = updateConnected (fun peer ↦ peer.announceBandwidth
          (announced context.now share peer) context.outgoingBandwidth) settled := by
  obtain ⟨hfloor, hzero, hlevels⟩ :=
    settlePeers_start context.now context.incomingBandwidth.toNat hsome
  refine ⟨_, _, hfloor, hzero, hlevels, ?_⟩
  unfold shareIncoming
  dsimp only
  rw [if_neg hlimited]
  rfl

end Allocator

end ReliableDatagram
