import ReliableDatagram.Proofs.Allocation.Range
import Mathlib.Algebra.BigOperators.Ring.List
import Mathlib.Data.List.Forall2

/-!
# The throttles after an allocation

What a throttle lets through of the data that a connection has queued is within what its other
end can receive, and all connections together are within the budget of the host. The exception
is a connection that would have to be stopped: it gets the least throttle there is, as a
throttle of 0 would never let it go on.
-/

namespace ReliableDatagram

namespace Allocator

variable {allocator : Allocator} {context : Context} {scale : UInt32} {table : SlotTable}
  {period : Period} {throttle : Nat} {peer middle next : Peer}
  {slots after : List (Option Peer)}

/-! ## What becomes of a throttle -/

structure KeepsThrottle (peer next : Peer) : Prop where
  id : next.id = peer.id
  state : next.state = peer.state
  pacing : next.pacing = peer.pacing
  outgoingEpoch : next.outgoingEpoch = peer.outgoingEpoch

theorem keepsThrottle_announceBandwidth (peer : Peer) (incoming outgoing : UInt32) :
    KeepsThrottle peer (peer.announceBandwidth incoming outgoing) := by
  rw [Peer.announceBandwidth, Peer.queueControl_eq]
  exact ⟨rfl, rfl, rfl, rfl⟩

theorem KeepsThrottle.trans (h : KeepsThrottle peer middle) (hnext : KeepsThrottle middle next) :
    KeepsThrottle peer next where
  id := hnext.id.trans h.id
  state := hnext.state.trans h.state
  pacing := hnext.pacing.trans h.pacing
  outgoingEpoch := hnext.outgoingEpoch.trans h.outgoingEpoch

theorem shareIncoming_keepsThrottle (context : Context) (hsome : 0 < (connected slots).length) :
    SlotTable.Slotwise KeepsThrottle slots (shareIncoming context slots) := by
  have hannounced (share : Nat) (slots : List (Option Peer)) :
      SlotTable.Slotwise KeepsThrottle slots (updateConnected (fun peer ↦ peer.announceBandwidth
        (announced context.now share peer) context.outgoingBandwidth) slots) := by
    apply SlotTable.slotwise_map
    intro peer
    split
    · exact keepsThrottle_announceBandwidth peer _ _
    · exact ⟨rfl, rfl, rfl, rfl⟩
  by_cases hlimited : context.incomingBandwidth = 0
  · unfold shareIncoming
    dsimp only
    rw [if_pos hlimited]
    exact hannounced 0 slots
  · obtain ⟨share, settled, -, -, hlevels, heq⟩ := shareIncoming_levels hlimited hsome
    rw [heq]
    refine hlevels.settles.comp (hannounced share settled) fun peer middle next hfirst hsecond ↦ ?_
    cases hfirst with
    | kept => exact hsecond
    | settled =>
      have hfirst : KeepsThrottle peer (Allocator.settled context.now peer) := ⟨rfl, rfl, rfl, rfl⟩
      exact hfirst.trans hsecond

/-- What becomes of a connection when the capped ones are known. -/
structure Period.Opens (period : Period) (throttle : Nat) (peer next : Peer) : Prop where
  id : next.id = peer.id
  state : next.state = peer.state
  outgoingEpoch : next.outgoingEpoch = peer.outgoingEpoch
  limit : peer.state = .connected → next.pacing.limit =
    if peer.outgoingEpoch = period.now then peer.pacing.limit else UInt32.ofNat throttle

theorem run_opens (allocator : Allocator) (context : Context) (scale : UInt32)
    (hsome : table.connected ≠ []) {capped : List (Option Peer)}
    (h : shareOutgoing (allocator.period context scale) context.outgoingBandwidth
      table.slots.toList =
        updateConnected ((allocator.period context scale).opened throttle) capped)
    (hcapped : (connected capped).length = table.connected.length) :
    SlotTable.Slotwise ((allocator.period context scale).Opens throttle) capped
      (allocator.run context scale table).2.slots.toList := by
  rw [run_slots allocator context scale hsome, h]
  dsimp only
  generalize allocator.period context scale = period
  have hopens : SlotTable.Slotwise (period.Opens throttle) capped
      (updateConnected (period.opened throttle) capped) := by
    apply SlotTable.slotwise_map
    intro peer
    by_cases hstate : peer.state = .connected
    · rw [if_pos hstate]
      unfold Period.opened
      split
      · exact ⟨rfl, rfl, rfl, fun _ ↦ (if_pos ‹_›).symm⟩
      · exact ⟨rfl, rfl, rfl, fun _ ↦ (if_neg ‹_›).symm⟩
    · rw [if_neg hstate]
      exact ⟨rfl, rfl, rfl, fun hconnected ↦ absurd hconnected hstate⟩
  have hkeeps : SlotTable.Slotwise KeepsThrottle (updateConnected (period.opened throttle) capped)
      (if allocator.recalculate then
        shareIncoming context (updateConnected (period.opened throttle) capped)
      else updateConnected (period.opened throttle) capped) := by
    split
    · apply shareIncoming_keepsThrottle
      rw [← (connected_of_slotwise hopens fun _ _ hbecomes ↦ hbecomes.state).length_eq, hcapped]
      exact List.length_pos_of_ne_nil hsome
    · exact .refl (fun _ ↦ ⟨rfl, rfl, rfl, rfl⟩) _
  have hreset (slots : List (Option Peer)) :
      SlotTable.Slotwise KeepsThrottle slots (slots.map (·.map Peer.resetTotals)) :=
    SlotTable.slotwise_map (fun _ ↦ ⟨rfl, rfl, rfl, rfl⟩) slots
  have hlater := hkeeps.comp (hreset _) fun _ _ _ hfirst hsecond ↦ hfirst.trans hsecond
  refine hopens.comp hlater fun peer middle next hfirst hsecond ↦ ?_
  exact {
    id := hsecond.id.trans hfirst.id
    state := hsecond.state.trans hfirst.state
    outgoingEpoch := hsecond.outgoingEpoch.trans hfirst.outgoingEpoch
    limit := fun hstate ↦ by rw [hsecond.pacing, hfirst.limit hstate] }

/-- The throttle of a connection was raised to the minimum of 1 when it was capped. -/
def Period.Raised (period : Period) (peer next : Peer) : Prop :=
  next.outgoingEpoch = period.now ∧
    period.bytes peer.incomingBandwidth * period.scale < peer.outgoingTotal.toNat ∧
    next.pacing.limit = 1

instance (period : Period) (peer next : Peer) : Decidable (period.Raised peer next) :=
  inferInstanceAs (Decidable (_ ∧ _ ∧ _))

/-- What a connection may send, in terms of the budgets. -/
def Period.charge (period : Period) (throttle : Nat) (peer : Peer) : Nat :=
  throttle * among Peer.outgoingEpoch period.now (·.outgoingTotal.toNat) peer +
    aside Peer.outgoingEpoch period.now period.allowance peer * period.scale

theorem total_charge (period : Period) (throttle : Nat) (slots : List (Option Peer)) :
    total (period.charge throttle) slots =
      throttle * total (among Peer.outgoingEpoch period.now (·.outgoingTotal.toNat)) slots +
        total (aside Peer.outgoingEpoch period.now period.allowance) slots * period.scale := by
  unfold total
  rw [← List.sum_map_mul_left, ← List.sum_map_mul_right, ← List.sum_map_add]
  rfl

structure Period.Bounds (period : Period) (throttle : Nat) (peer middle next : Peer) : Prop where
  id : next.id = peer.id
  le_scale : next.pacing.limit.toNat ≤ period.scale
  within : peer.incomingBandwidth ≠ 0 → period.Raised peer next ∨
    next.pacing.limit.toNat * peer.outgoingTotal.toNat / period.scale ≤
      period.bytes peer.incomingBandwidth
  le_charge : ¬ period.Raised peer next →
    next.pacing.limit.toNat * peer.outgoingTotal.toNat ≤ period.charge throttle middle

theorem Period.Caps.bounds (h : period.Caps peer middle)
    (hopens : period.Opens throttle middle next)
    (hfits : period.Fits) (hpos : 0 < period.scale) (hthrottle : throttle ≤ period.scale)
    (hstate : peer.state = .connected) (hfresh : peer.outgoingEpoch ≠ period.now)
    (hsuits : period.Suits throttle middle) : period.Bounds throttle peer middle next := by
  have hlimit := hopens.limit (h.state_eq.trans hstate)
  have htoNat {value : Nat} (hle : value ≤ period.scale) : (UInt32.ofNat value).toNat = value :=
    UInt32.toNat_ofNat_of_lt' (Nat.lt_of_le_of_lt hle hfits.scale)
  have hmax : max period.scale 1 = period.scale := Nat.max_eq_left hpos
  cases h with
  | kept =>
    rw [if_neg hfresh] at hlimit
    have hvalue : next.pacing.limit.toNat = throttle := by rw [hlimit, htoNat hthrottle]
    refine ⟨hopens.id, hvalue ▸ hthrottle, fun hlimited ↦ .inr ?_, fun _ ↦ ?_⟩
    · have hle := hsuits hlimited hfresh
      rwa [hmax, ← hvalue] at hle
    · rw [Period.charge, among, if_neg hfresh, hvalue]
      exact Nat.le_add_right _ _
  | capped _ _ _ _ hallowance =>
    have hquotient : period.allowance peer * period.scale / peer.outgoingTotal.toNat ≤
        period.scale := by
      apply Nat.div_le_of_le_mul
      exact Nat.mul_le_mul_right _ (Nat.le_of_lt hallowance)
    have hcap : period.cap peer ≤ period.scale := Nat.max_le.mpr ⟨hquotient, hpos⟩
    have hmark : (period.capped peer).outgoingEpoch = period.now := rfl
    have hmarked : next.outgoingEpoch = period.now := hopens.outgoingEpoch
    have hvalue : next.pacing.limit.toNat = period.cap peer := by
      rw [hlimit, if_pos hmark]
      exact htoNat hcap
    have hcharge : period.charge throttle (period.capped peer) =
        period.allowance peer * period.scale := by
      rw [Period.charge, among, if_pos hmark, Nat.mul_zero, Nat.zero_add, aside, if_pos hmark]
      rfl
    by_cases hless : period.allowance peer * period.scale < peer.outgoingTotal.toNat
    · have hone : next.pacing.limit = 1 := by
        rw [← UInt32.toNat_inj, hvalue, Period.cap, Nat.div_eq_of_lt hless]
        rfl
      have hraised : period.Raised peer next := ⟨hmarked, hless, hone⟩
      exact ⟨hopens.id, hvalue ▸ hcap, fun _ ↦ .inl hraised, fun hnot ↦ absurd hraised hnot⟩
    · have hone : 1 ≤ period.allowance peer * period.scale / peer.outgoingTotal.toNat :=
        (Nat.one_le_div_iff (Nat.zero_lt_of_lt hallowance)).mpr (Nat.le_of_not_lt hless)
      have hproduct : next.pacing.limit.toNat * peer.outgoingTotal.toNat ≤
          period.allowance peer * period.scale := by
        rw [hvalue, Period.cap, Nat.max_eq_left hone]
        exact Nat.div_mul_le_self _ _
      refine ⟨hopens.id, hvalue ▸ hcap, fun _ ↦ .inr ?_, fun _ ↦ hcharge ▸ hproduct⟩
      calc
        next.pacing.limit.toNat * peer.outgoingTotal.toNat / period.scale ≤
            period.allowance peer * period.scale / period.scale := Nat.div_le_div_right hproduct
        _ = period.allowance peer := Nat.mul_div_cancel _ hpos

/-! ## All throttles together -/

section

variable {before capped opened : List Peer} {caps opens : Peer → Peer → Prop}
  (hcaps : List.Forall₂ caps before capped) (hopens : List.Forall₂ opens capped opened)
include hcaps hopens

/-- What two changes come to for each connection. -/
theorem forall₂_comp {both : Peer → Peer → Prop}
    (h : ∀ peer middle next, caps peer middle → opens middle next → both peer next) :
    List.Forall₂ both before opened := by
  induction hcaps generalizing opened with
  | nil =>
    cases hopens
    exact .nil
  | cons hhead _ ih =>
    cases hopens with
    | cons hnext hrest => exact .cons (h _ _ _ hhead hnext) (ih hrest)

/-- A figure of the connections before and after is bounded by one of those in between. -/
theorem sum_zip_le {keep : Peer × Peer → Bool} {value : Peer × Peer → Nat} {charge : Peer → Nat}
    (h : ∀ peer middle next, caps peer middle → opens middle next → keep (peer, next) = true →
      value (peer, next) ≤ charge middle) :
    (((before.zip opened).filter keep).map value).sum ≤ (capped.map charge).sum := by
  induction hcaps generalizing opened with
  | nil => exact Nat.zero_le _
  | @cons peer middle _ _ hhead _ ih =>
    cases hopens with
    | @cons _ next _ _ hnext hrest =>
      have hlater := ih hrest
      rw [List.zip_cons_cons, List.filter_cons, List.map_cons, List.sum_cons]
      split
      · rename_i hkeep
        rw [List.map_cons, List.sum_cons]
        exact Nat.add_le_add (h peer middle next hhead hnext hkeep) hlater
      · exact hlater.trans (Nat.le_add_left _ _)

end

/-- A limited host caps some connections and opens the others to a common throttle, and what they
may send then is within its budget. -/
theorem run_caps (allocator : Allocator) (context : Context) (scale : UInt32) {table : SlotTable}
    (hlimited : context.outgoingBandwidth ≠ 0) (hsome : table.connected ≠ [])
    (huncapped : ∀ peer ∈ table.connected, peer.outgoingEpoch ≠ context.now) :
    let period := allocator.period context scale
    ∃ throttle capped, throttle ≤ period.scale ∧
      List.Forall₂ (fun peer middle ↦
        (peer.state = .connected ∧ peer.outgoingEpoch ≠ period.now) ∧ period.Caps peer middle)
        table.connected (connected capped) ∧
      List.Forall₂ (fun middle next ↦
        period.Suits throttle middle ∧ period.Opens throttle middle next)
        (connected capped) (allocator.run context scale table).2.connected ∧
      total (period.charge throttle) capped ≤
        period.bytes context.outgoingBandwidth * period.scale := by
  intro period
  obtain ⟨throttle, capped, hthrottle, hcaps, hsuits, hmeets, hshared⟩ :=
    shareOutgoing_balanced period context.outgoingBandwidth table.slots.toList
  have hfirst := connected_of_slotwise hcaps fun _ _ hbecomes ↦ hbecomes.state_eq
  have hopens := run_opens allocator context scale hsome hshared hfirst.length_eq.symm
  have hsecond := connected_of_slotwise hopens fun _ _ hbecomes ↦ hbecomes.state
  have hfresh (peer : Peer) (hpeer : peer ∈ table.connected) :
      peer.state = .connected ∧ peer.outgoingEpoch ≠ period.now :=
    ⟨state_of_mem_connected hpeer, huncapped peer hpeer⟩
  refine ⟨throttle, capped, hthrottle, ?_, ?_, ?_⟩
  · exact (List.forall₂_and_left _ _).mpr ⟨hfresh, hfirst⟩
  · exact (List.forall₂_and_left _ _).mpr ⟨hsuits, hsecond⟩
  · have hnobody : total (aside Peer.outgoingEpoch period.now period.allowance)
        table.slots.toList = 0 := total_eq_zero fun peer hpeer ↦ if_neg (huncapped peer hpeer)
    have houtput : period.output context.outgoingBandwidth =
        period.bytes context.outgoingBandwidth := if_neg hlimited
    rwa [hnobody, Nat.add_zero, houtput, ← total_charge] at hmeets

/-- An allocation of a limited outgoing bandwidth ends without leaving the range of its numbers.
Afterwards no throttle is above its scale; what passes of the data that a connection had queued
is within what its other end can receive; and what passes of all data is within the budget of
the host. Only a connection whose throttle was raised to the minimum may exceed the budgets. -/
theorem run_throttles (allocator : Allocator) (context : Context) (scale : UInt32)
    (table : SlotTable) (hcapacity : table.capacity ≤ 2 ^ 16)
    (hlimited : context.outgoingBandwidth ≠ 0) (hscale : scale ≠ 0)
    (huncapped : ∀ peer ∈ table.connected, peer.outgoingEpoch ≠ context.now) :
    let period := allocator.period context scale
    let after := (allocator.run context scale table).2
    allocator.run? context scale table = some (allocator.run context scale table) ∧
      List.Forall₂ (fun peer next ↦ next.id = peer.id ∧ next.pacing.limit ≤ scale ∧
        (peer.incomingBandwidth ≠ 0 → period.Raised peer next ∨
          next.pacing.limit.toNat * peer.outgoingTotal.toNat / scale.toNat ≤
            period.bytes peer.incomingBandwidth)) table.connected after.connected ∧
      (((table.connected.zip after.connected).filter
          fun (peer, next) ↦ ¬ period.Raised peer next).map
        fun (peer, next) ↦ next.pacing.limit.toNat * peer.outgoingTotal.toNat).sum ≤
          scale.toNat * period.bytes context.outgoingBandwidth := by
  intro period after
  refine ⟨run?_eq allocator context scale hcapacity, ?_⟩
  by_cases hsome : table.connected = []
  · have hafter : after = table := run_of_connected_eq_nil allocator context scale hsome
    rw [hafter, hsome]
    exact ⟨.nil, Nat.zero_le _⟩
  obtain ⟨throttle, capped, hthrottle, hbefore, hafter, hmeets⟩ :=
    run_caps allocator context scale hlimited hsome huncapped
  have hpos : 0 < period.scale := Nat.pos_of_ne_zero fun hzero ↦ hscale (UInt32.toNat_inj.mp hzero)
  have hbounds {peer middle next : Peer}
      (h : (peer.state = .connected ∧ peer.outgoingEpoch ≠ period.now) ∧ period.Caps peer middle)
      (hnext : period.Suits throttle middle ∧ period.Opens throttle middle next) :
      period.Bounds throttle peer middle next :=
    h.2.bounds hnext.2 (fits_period allocator context scale) hpos hthrottle h.1.1 h.1.2 hnext.1
  constructor
  · apply forall₂_comp hbefore hafter
    intro peer middle next h hnext
    have hbound := hbounds h hnext
    exact ⟨hbound.id, UInt32.le_iff_toNat_le.mpr hbound.le_scale, hbound.within⟩
  · calc
      _ ≤ total (period.charge throttle) capped := by
        apply sum_zip_le hbefore hafter
        intro peer middle next h hnext hkeep
        exact (hbounds h hnext).le_charge (of_decide_eq_true hkeep)
      _ ≤ period.bytes context.outgoingBandwidth * period.scale := hmeets
      _ = scale.toNat * period.bytes context.outgoingBandwidth := Nat.mul_comm _ _

/-- Three connections of a host that may send 1000 bytes in a second: the other ends of two of them
receive less than was queued, and one of these would have to be stopped. -/
def crowd : SlotTable where
  slots := #[
    some { Peer.vacant 0 {} with
      state := .connected, incomingBandwidth := 10, outgoingTotal := 1000 },
    some { Peer.vacant 1 {} with
      state := .connected, incomingBandwidth := 100, outgoingTotal := 1000 },
    some { Peer.vacant 2 {} with
      state := .connected, outgoingTotal := 500 }]
  vacant := []
  settings := {}

theorem run_throttles_crowd :
    let after := (run {} ⟨1000, 0, 1000⟩ 32 crowd).2
    after.connected.map (·.pacing.limit) = [1, 3, 32] ∧
      (((crowd.connected.zip after.connected).filter
          fun (peer, next) ↦ ¬ (Allocator.period {} ⟨1000, 0, 1000⟩ 32).Raised peer next).map
        fun (peer, next) ↦ next.pacing.limit.toNat * peer.outgoingTotal.toNat).sum ≤ 32 * 1000 :=
  have h := run_throttles {} ⟨1000, 0, 1000⟩ 32 crowd
    (by decide) (by decide) (by decide) (by decide)
  ⟨by decide, h.2.2⟩

end Allocator

end ReliableDatagram
