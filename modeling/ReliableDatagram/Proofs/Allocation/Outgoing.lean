import ReliableDatagram.Proofs.Allocation.Sweeps

/-!
# The shares of the outgoing bandwidth

The common throttle falls short of no budget: as long as connections are capped one by one, what
the others have queued passes at the throttle within what is left to them, and what was taken
from the budget is what the capped ones may send. So when the last connection has been capped,
all that is sent together stays within the budget of the host.
-/

namespace ReliableDatagram

namespace Allocator

/-! ## Capping a connection -/

def period (allocator : Allocator) (context : Context) (scale : UInt32) : Period where
  now := context.now
  elapsed := (Stamp.distance context.now allocator.epoch).toNat
  scale := scale.toNat

namespace Period

variable (period : Period)

/-- The bytes that the other end of a connection can receive in this period. -/
def allowance (peer : Peer) : Nat := period.bytes peer.incomingBandwidth

/-- The throttle that suits what the other end of a connection can receive. -/
def cap (peer : Peer) : Nat :=
  max (period.allowance peer * period.scale / peer.outgoingTotal.toNat) 1

def capped (peer : Peer) : Peer :=
  { peer.setThrottleLimit (UInt32.ofNat (period.cap peer)) with outgoingEpoch := period.now }

/-- A throttle lets through no more than the other end of a connection can receive, unless the
connection has been capped in this period. -/
def Suits (throttle : Nat) (peer : Peer) : Prop :=
  peer.incomingBandwidth ≠ 0 → peer.outgoingEpoch ≠ period.now →
    throttle * peer.outgoingTotal.toNat / max period.scale 1 ≤ period.allowance peer

structure Exceeds (throttle : Nat) (peer : Peer) : Prop where
  connected : peer.state = .connected
  limited : peer.incomingBandwidth ≠ 0
  uncapped : peer.outgoingEpoch ≠ period.now
  allowance_lt : period.allowance peer <
    throttle * peer.outgoingTotal.toNat / max period.scale 1

end Period

/-- What a connection leaves to the others when it has been capped. -/
def Budget.without (budget : Budget) (allowance data : Nat) : Budget where
  peers := budget.peers - 1
  bandwidth := budget.bandwidth - allowance
  data := budget.data - data
  adjusted := true

variable {period : Period} {throttle rounds whole : Nat} {budget : Budget} {peer next : Peer}
  {slots visited rest : List (Option Peer)}

/-- A connection is capped exactly if the throttle lets too much through. -/
theorem capPeer_cases (period : Period) (throttle : Nat) (budget : Budget) (peer : Peer) :
    (peer.state = .connected → period.Suits throttle peer) ∧
        capPeer period throttle budget peer = (budget, peer) ∨
      period.Exceeds throttle peer ∧
        capPeer period throttle budget peer =
          (budget.without (period.allowance peer) peer.outgoingTotal.toNat,
            period.capped peer) := by
  unfold capPeer
  split
  · rename_i hskipped
    refine .inl ⟨fun hstate hlimited huncapped ↦ ?_, rfl⟩
    rcases hskipped with hother | hunlimited | hcapped
    · exact absurd hstate hother
    · exact absurd hunlimited hlimited
    · exact absurd hcapped huncapped
  · rename_i hopen
    rw [not_or, not_or, not_not] at hopen
    obtain ⟨hstate, hlimited, huncapped⟩ := hopen
    dsimp only
    split
    · rename_i hsuits
      exact .inl ⟨fun _ _ _ ↦ hsuits, rfl⟩
    · rename_i hexceeds
      exact .inr ⟨⟨hstate, hlimited, huncapped, Nat.lt_of_not_le hexceeds⟩, rfl⟩

namespace Period.Exceeds

/-- What passes at the throttle is more than the other end can receive at full scale. -/
theorem mul_scale_lt (h : period.Exceeds throttle peer) :
    period.allowance peer * max period.scale 1 < throttle * peer.outgoingTotal.toNat := by
  have hpos : 0 < max period.scale 1 := Nat.le_max_right _ _
  have hle := (Nat.le_div_iff_mul_le hpos).mp (Nat.succ_le_of_lt h.allowance_lt)
  rw [Nat.succ_mul] at hle
  omega

/-- A connection is capped only if more is queued than its other end can receive. -/
theorem lt_outgoingTotal (h : period.Exceeds throttle peer) (hthrottle : throttle ≤ period.scale) :
    period.allowance peer < peer.outgoingTotal.toNat := by
  have hscale : throttle ≤ max period.scale 1 := hthrottle.trans (Nat.le_max_left _ _)
  apply Nat.lt_of_mul_lt_mul_right
  calc
    period.allowance peer * max period.scale 1 < throttle * peer.outgoingTotal.toNat :=
      h.mul_scale_lt
    _ ≤ max period.scale 1 * peer.outgoingTotal.toNat := Nat.mul_le_mul_right _ hscale
    _ = peer.outgoingTotal.toNat * max period.scale 1 := Nat.mul_comm _ _

theorem scale_pos (h : period.Exceeds throttle peer) (hthrottle : throttle ≤ period.scale) :
    0 < period.scale := by
  by_contra hzero
  have hlt := h.mul_scale_lt
  rw [Nat.le_zero.mp (hthrottle.trans (Nat.le_of_not_lt hzero)), Nat.zero_mul] at hlt
  exact Nat.not_lt_zero _ hlt

end Period.Exceeds

/-- What sharing may do to a connection before the common throttle is set. -/
inductive Period.Caps (period : Period) (peer : Peer) : Peer → Prop where
  | kept : Caps period peer peer
  | capped (hconnected : peer.state = .connected) (hlimited : peer.incomingBandwidth ≠ 0)
      (huncapped : peer.outgoingEpoch ≠ period.now) (hscale : 0 < period.scale)
      (hallowance : period.allowance peer < peer.outgoingTotal.toNat) :
      Caps period peer (period.capped peer)

theorem Period.Caps.trans {last : Peer} (h : period.Caps peer next)
    (hnext : period.Caps next last) :
    period.Caps peer last := by
  cases h with
  | kept => exact hnext
  | capped hconnected hlimited huncapped hscale hallowance =>
    cases hnext with
    | kept => exact .capped hconnected hlimited huncapped hscale hallowance
    | capped _ _ hagain => exact absurd rfl hagain

theorem Period.Caps.state_eq (h : period.Caps peer next) : next.state = peer.state := by
  cases h <;> rfl

theorem capPeer_caps (hthrottle : throttle ≤ period.scale) (budget : Budget) (peer : Peer) :
    period.Caps peer (capPeer period throttle budget peer).2 := by
  obtain ⟨-, heq⟩ | ⟨hexceeds, heq⟩ := capPeer_cases period throttle budget peer
  · rw [heq]
    exact .kept
  · rw [heq]
    exact .capped hexceeds.connected hexceeds.limited hexceeds.uncapped
      (hexceeds.scale_pos hthrottle) (hexceeds.lt_outgoingTotal hthrottle)

/-! ## The common throttle -/

/-- What is queued passes at a throttle within the budget. -/
def Budget.Meets (budget : Budget) (scale throttle : Nat) : Prop :=
  throttle * budget.data ≤ budget.bandwidth * scale

theorem Budget.throttle_meets (budget : Budget) (scale : Nat) :
    budget.Meets scale (budget.throttle scale) := by
  unfold Budget.Meets Budget.throttle
  split
  · rename_i hle
    rw [Nat.mul_comm]
    exact Nat.mul_le_mul_right scale hle
  · exact (Nat.div_mul_le_self _ _).trans (Nat.min_le_left _ _)

theorem Budget.throttle_le (budget : Budget) (scale : Nat) : budget.throttle scale ≤ scale := by
  have hmeets := budget.throttle_meets scale
  unfold Budget.throttle
  split
  · exact Nat.le_refl scale
  · rename_i hgreater
    apply Nat.div_le_of_le_mul
    calc
      min (budget.bandwidth * scale) unlimited ≤ budget.bandwidth * scale := Nat.min_le_left _ _
      _ ≤ budget.data * scale := Nat.mul_le_mul_right scale (Nat.le_of_not_le hgreater)

/-! ## Capping all connections that need it -/

/-- A budget has room for the connections that have not been capped and for what they have
queued, and with what the others can receive it makes up the whole. -/
structure Covers (period : Period) (whole : Nat) (budget : Budget)
    (slots : List (Option Peer)) : Prop where
  peers : total (among Peer.outgoingEpoch period.now fun _ ↦ 1) slots ≤ budget.peers
  data : total (among Peer.outgoingEpoch period.now (·.outgoingTotal.toNat)) slots ≤ budget.data
  bandwidth : budget.bandwidth +
    total (aside Peer.outgoingEpoch period.now period.allowance) slots = whole

/-- Capping one connection keeps the budget right, and the throttle still meets it. -/
theorem Covers.cap (h : Covers period whole budget (visited ++ some peer :: rest))
    (hmeets : budget.Meets period.scale throttle) (hthrottle : throttle ≤ period.scale)
    (hexceeds : period.Exceeds throttle peer) :
    0 < budget.peers ∧
      Covers period whole (budget.without (period.allowance peer) peer.outgoingTotal.toNat)
        (visited ++ some (period.capped peer) :: rest) ∧
      (budget.without (period.allowance peer) peer.outgoingTotal.toNat).Meets
        period.scale throttle := by
  obtain ⟨hpeers, hdata, hbandwidth⟩ := h
  have hstate := hexceeds.connected
  have hcapped : (period.capped peer).state = .connected := hstate
  have hamong (figure : Peer → Nat) :=
    total_among_set hstate hcapped hexceeds.uncapped rfl figure visited rest
  have haside : total (aside Peer.outgoingEpoch period.now period.allowance)
      (visited ++ some (period.capped peer) :: rest) =
        total (aside Peer.outgoingEpoch period.now period.allowance)
          (visited ++ some peer :: rest) + period.allowance peer :=
    total_aside_set hstate hcapped hexceeds.uncapped rfl period.allowance visited rest
  rw [hamong] at hpeers hdata
  have hscale : max period.scale 1 = period.scale := Nat.max_eq_left (hexceeds.scale_pos hthrottle)
  have hexcess := hexceeds.mul_scale_lt
  rw [hscale] at hexcess
  have hqueued : throttle * peer.outgoingTotal.toNat ≤ throttle * budget.data :=
    Nat.mul_le_mul_left throttle (by omega)
  have hallowance : period.allowance peer ≤ budget.bandwidth := by
    apply Nat.le_of_lt
    apply Nat.lt_of_mul_lt_mul_right
    exact Nat.lt_of_lt_of_le hexcess (hqueued.trans hmeets)
  refine ⟨by omega, ⟨?_, ?_, ?_⟩, ?_⟩
  · exact Nat.le_sub_of_add_le hpeers
  · exact Nat.le_sub_of_add_le hdata
  · rw [haside, Budget.without]
    dsimp only
    omega
  · unfold Budget.Meets at hmeets
    rw [Budget.Meets, Budget.without]
    dsimp only
    rw [Nat.mul_sub, Nat.sub_mul]
    omega

def Holds (period : Period) (whole throttle : Nat) (budget : Budget)
    (slots : List (Option Peer)) : Prop :=
  Covers period whole budget slots ∧ budget.Meets period.scale throttle

/-- A connection is capped, or the throttle suits it. -/
theorem capPeer_visits (whole : Nat) (hthrottle : throttle ≤ period.scale) (budget : Budget)
    (peer : Peer) : Visits (Holds period whole throttle) (period.Suits throttle) budget peer
      (capPeer period throttle budget peer) := by
  obtain ⟨hsuits, heq⟩ | ⟨hexceeds, heq⟩ := capPeer_cases period throttle budget peer
  · rw [heq]
    exact .leaves hsuits
  · rw [heq]
    refine .sets rfl rfl (fun _ hagain ↦ absurd rfl hagain) ?_
    rintro visited rest ⟨hcovers, hmeets⟩
    exact hcovers.cap hmeets hthrottle hexceeds

/-- The common throttle meets the budget and suits all connections that have not been capped. -/
structure Balanced (period : Period) (throttle : Nat) (budget : Budget)
    (slots : List (Option Peer)) : Prop where
  meets : budget.Meets period.scale throttle
  suits : ∀ peer ∈ connected slots, period.Suits throttle peer

/-- Another round caps connections at the throttle at which what is left meets the budget. -/
theorem Covers.sweep (h : Covers period whole budget slots) :
    let next := budget.throttle period.scale
    let swept := sweep (capPeer period next) { budget with adjusted := false } slots
    Covers period whole swept.1 swept.2 ∧ Balanced period next swept.1 swept.2 ∧
      SlotTable.Slotwise period.Caps slots swept.2 ∧
      (swept.1.adjusted = true → swept.1.peers < budget.peers) := by
  intro next swept
  have hle : next ≤ period.scale := budget.throttle_le period.scale
  have hstart : Holds period whole next { budget with adjusted := false } slots :=
    ⟨⟨h.peers, h.data, h.bandwidth⟩, budget.throttle_meets period.scale⟩
  obtain ⟨hholds, hsuits, -, hfewer⟩ := sweep_sets (capPeer_visits whole hle) hstart
  rw [List.append_nil] at hholds
  exact ⟨hholds.1, ⟨hholds.2, hsuits⟩,
    sweep_slotwise (fun budget peer ↦ capPeer_caps hle budget peer) _ slots, hfewer⟩

/-- The rounds end with no connection left to share, or with a throttle for those that are. -/
theorem capPeers_balanced (h : Covers period whole budget slots)
    (hthrottle : throttle ≤ period.scale)
    (hbalanced : budget.adjusted = false → Balanced period throttle budget slots)
    (hrounds : budget.adjusted = true → budget.peers < rounds) :
    ∃ throttle' budget' slots',
      capPeers period rounds throttle budget slots = (throttle', budget', slots') ∧
        throttle' ≤ period.scale ∧ Covers period whole budget' slots' ∧
        SlotTable.Slotwise period.Caps slots slots' ∧
        (budget'.peers = 0 ∨ Balanced period throttle' budget' slots') := by
  induction rounds generalizing throttle budget slots with
  | zero =>
    refine ⟨throttle, budget, slots, rfl, hthrottle, h, .refl (fun _ ↦ .kept) slots, .inr ?_⟩
    cases hadjusted : budget.adjusted with
    | true => exact absurd (hrounds hadjusted) (Nat.not_lt_zero _)
    | false => exact hbalanced hadjusted
  | succ rounds ih =>
    unfold capPeers
    split
    · rename_i hover
      refine ⟨throttle, budget, slots, rfl, hthrottle, h, .refl (fun _ ↦ .kept) slots, ?_⟩
      rw [Bool.not_eq_true'] at hover
      exact hover.imp_right hbalanced
    · rename_i hgoes
      rw [not_or, Bool.not_eq_true', Bool.not_eq_false] at hgoes
      obtain ⟨hcovers, hnext, hcaps, hfewer⟩ := h.sweep
      obtain ⟨throttle', budget', slots', heq, hthrottle', hcovers', hcaps', hends⟩ :=
        ih hcovers (budget.throttle_le period.scale) (fun _ ↦ hnext) fun hadjusted ↦ by
          have hbelow := hfewer hadjusted
          have hbound := hrounds hgoes.2
          omega
      exact ⟨throttle', budget', slots', heq, hthrottle', hcovers',
        hcaps.comp hcaps' fun _ _ _ hfirst hsecond ↦ hfirst.trans hsecond, hends⟩

/-! ## Sharing among all connections -/

/-- A connection at the common throttle, unless it has been capped. -/
def Period.opened (period : Period) (throttle : Nat) (peer : Peer) : Peer :=
  if peer.outgoingEpoch = period.now then peer
  else peer.setThrottleLimit (UInt32.ofNat throttle)

/-- Where all connections that stand have been capped, there is none for the common throttle. -/
theorem updateConnected_opened (throttle : Nat)
    (h : total (among Peer.outgoingEpoch period.now fun _ ↦ 1) slots = 0) :
    updateConnected (period.opened throttle) slots = slots := by
  have hslot (slot : Option Peer) (hmem : slot ∈ slots) :
      slot.map (fun peer ↦ if peer.state = .connected then period.opened throttle peer else peer) =
        slot := by
    cases slot with
    | none => rfl
    | some peer =>
      rw [Option.map_some]
      congr 1
      split
      · rename_i hstate
        exact if_pos (stamp_eq_of_total_among h (mem_connected.mpr ⟨hmem, hstate⟩))
      · rfl
  calc
    updateConnected (period.opened throttle) slots = slots.map id := List.map_congr_left hslot
    _ = slots := List.map_id slots

def Period.output (period : Period) (outgoing : UInt32) : Nat :=
  if outgoing = 0 then unlimited else period.bytes outgoing

/-- The budget with which sharing begins: that of all connections that stand. -/
def Period.start (period : Period) (outgoing : UInt32) (slots : List (Option Peer)) : Budget where
  peers := (connected slots).length
  bandwidth := period.output outgoing
  data := total (·.outgoingTotal.toNat) slots
  adjusted := true

theorem covers_start (period : Period) (outgoing : UInt32) (slots : List (Option Peer)) :
    Covers period (period.output outgoing +
        total (aside Peer.outgoingEpoch period.now period.allowance) slots)
      (period.start outgoing slots) slots where
  peers := by
    rw [Period.start, ← total_one]
    exact total_le_total fun peer _ ↦ among_le _ _ _ peer
  data := total_le_total fun peer _ ↦ among_le _ _ _ peer
  bandwidth := rfl

theorem shareOutgoing_eq (period : Period) (outgoing : UInt32) (slots : List (Option Peer)) :
    shareOutgoing period outgoing slots =
      let (throttle, budget, slots) := capPeers period ((period.start outgoing slots).peers + 1)
        period.scale (period.start outgoing slots) slots
      if budget.peers = 0 then slots else updateConnected (period.opened throttle) slots := by
  have hfold : (connected slots).foldr (fun peer data ↦ peer.outgoingTotal.toNat + data) 0 =
      total (·.outgoingTotal.toNat) slots := by
    rw [total, List.sum_eq_foldr, List.foldr_map]
  have hstart : period.start outgoing slots = {
      peers := (connected slots).length
      bandwidth := if outgoing = 0 then unlimited else period.bytes outgoing
      data := (connected slots).foldr (fun peer data ↦ peer.outgoingTotal.toNat + data) 0
      adjusted := true } := by
    rw [hfold]
    rfl
  rw [hstart]
  rfl

/-- Sharing caps some connections and sets the others to a common throttle that suits them. What
the others have queued passes within what the capped ones leave of the budget. -/
theorem shareOutgoing_balanced (period : Period) (outgoing : UInt32) (slots : List (Option Peer)) :
    ∃ throttle middle, throttle ≤ period.scale ∧
      SlotTable.Slotwise period.Caps slots middle ∧
      (∀ peer ∈ connected middle, period.Suits throttle peer) ∧
      throttle * total (among Peer.outgoingEpoch period.now (·.outgoingTotal.toNat)) middle +
          total (aside Peer.outgoingEpoch period.now period.allowance) middle * period.scale ≤
        (period.output outgoing +
          total (aside Peer.outgoingEpoch period.now period.allowance) slots) * period.scale ∧
      shareOutgoing period outgoing slots = updateConnected (period.opened throttle) middle := by
  obtain ⟨throttle, budget, middle, heq, hthrottle, hcovers, hcaps, hends⟩ :=
    capPeers_balanced (covers_start period outgoing slots) (Nat.le_refl period.scale)
      (fun hadjusted ↦ by cases hadjusted) (fun _ ↦ Nat.lt_succ_self _)
  have hnone (hzero : budget.peers = 0) :
      total (among Peer.outgoingEpoch period.now fun _ ↦ 1) middle = 0 :=
    Nat.le_zero.mp (hzero ▸ hcovers.peers)
  refine ⟨throttle, middle, hthrottle, hcaps, ?_, ?_, ?_⟩
  · rcases hends with hzero | hbalanced
    · exact fun peer hpeer _ hopen ↦ absurd (stamp_eq_of_total_among (hnone hzero) hpeer) hopen
    · exact hbalanced.suits
  · rw [← hcovers.bandwidth, Nat.add_mul]
    apply Nat.add_le_add_right
    rcases hends with hzero | hbalanced
    · rw [total_among_eq_zero (hnone hzero), Nat.mul_zero]
      exact Nat.zero_le _
    · exact (Nat.mul_le_mul_left throttle hcovers.data).trans hbalanced.meets
  · rw [shareOutgoing_eq, heq]
    dsimp only
    split
    · rename_i hzero
      exact (updateConnected_opened throttle (hnone hzero)).symm
    · rfl

def Throttles (peer next : Peer) : Prop :=
  ∃ pacing epoch, next = { peer with pacing := pacing, outgoingEpoch := epoch }

theorem Throttles.state_eq (h : Throttles peer next) : next.state = peer.state := by
  obtain ⟨pacing, epoch, rfl⟩ := h
  rfl

theorem shareOutgoing_throttles (period : Period) (outgoing : UInt32)
    (slots : List (Option Peer)) :
    SlotTable.Slotwise Throttles slots (shareOutgoing period outgoing slots) := by
  obtain ⟨throttle, middle, -, hcaps, -, -, heq⟩ := shareOutgoing_balanced period outgoing slots
  rw [heq]
  refine hcaps.comp (SlotTable.slotwise_map (fun _ ↦ rfl) middle) ?_
  rintro peer next - hfirst rfl
  have hopened : Throttles next
      (if next.state = .connected then period.opened throttle next else next) := by
    split
    · unfold Period.opened
      split
      · exact ⟨next.pacing, next.outgoingEpoch, rfl⟩
      · exact ⟨_, next.outgoingEpoch, rfl⟩
    · exact ⟨next.pacing, next.outgoingEpoch, rfl⟩
  obtain ⟨pacing, epoch, hopened⟩ := hopened
  rw [hopened]
  cases hfirst with
  | kept => exact ⟨pacing, epoch, rfl⟩
  | capped => exact ⟨pacing, epoch, rfl⟩

/-! ## The whole allocation -/

/-- If no connection stands, nothing is shared. -/
theorem run_of_connected_eq_nil (allocator : Allocator) (context : Context) (scale : UInt32)
    (hnone : table.connected = []) : (allocator.run context scale table).2 = table := by
  have hcount : table.connectedCount = 0 := by rw [← length_connected, hnone, List.length_nil]
  rw [run, if_pos hcount]

/-- The slots of a host that has a connection when its bandwidth has been shared. -/
theorem run_slots (allocator : Allocator) (context : Context) (scale : UInt32)
    (hsome : table.connected ≠ []) :
    let shared := shareOutgoing (allocator.period context scale) context.outgoingBandwidth
      table.slots.toList
    (allocator.run context scale table).2 = { table with
      slots := ((if allocator.recalculate then shareIncoming context shared else shared).map
        (·.map Peer.resetTotals)).toArray } := by
  have hcount : table.connectedCount ≠ 0 := by
    rw [← length_connected]
    exact Nat.ne_of_gt (List.length_pos_of_ne_nil hsome)
  rw [run, if_neg hcount]
  rfl

end Allocator

end ReliableDatagram
