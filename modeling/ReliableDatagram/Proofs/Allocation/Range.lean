import ReliableDatagram.Proofs.Allocation.Incoming
import ReliableDatagram.Proofs.Allocation.Outgoing

/-!
# Sharing in 64-bit arithmetic

Here bandwidth is shared in numbers of 64 bits. A sum or a product that is too large, a difference
below 0 and a quotient by 0 have no result, nor has a loop that goes on when its rounds have run
out; only where saturation is intended does a number stop at an end of the range. There is always
a result, and it is the one of the natural numbers.
-/

namespace ReliableDatagram

namespace Allocator

/-! ## Arithmetic -/

def word? (value : Nat) : Option Nat := if value ≤ unlimited then some value else none

def sub? (value other : Nat) : Option Nat := if other ≤ value then some (value - other) else none

def div? (value divisor : Nat) : Option Nat := if divisor = 0 then none else some (value / divisor)

theorem word?_eq {value : Nat} (h : value ≤ unlimited) : word? value = some value := if_pos h

theorem sub?_eq {value other : Nat} (h : other ≤ value) : sub? value other = some (value - other) :=
  if_pos h

theorem div?_eq {value divisor : Nat} (h : 0 < divisor) :
    div? value divisor = some (value / divisor) := if_neg (Nat.pos_iff_ne_zero.mp h)

/-- Visits the occupied slots in order with a running state, as long as the visits have results. -/
def sweep? {β : Type} (visit : β → Peer → Option (β × Peer)) :
    β → List (Option Peer) → Option (β × List (Option Peer))
  | state, [] => some (state, [])
  | state, none :: rest => do
    let (state, rest) ← sweep? visit state rest
    return (state, none :: rest)
  | state, some peer :: rest => do
    let (state, peer) ← visit state peer
    let (state, rest) ← sweep? visit state rest
    return (state, some peer :: rest)

/-! ## Outgoing bandwidth -/

def Period.bytes? (period : Period) (bandwidth : UInt32) : Option Nat := do
  div? (← word? (bandwidth.toNat * period.elapsed)) 1000

def Period.output? (period : Period) (outgoing : UInt32) : Option Nat :=
  if outgoing = 0 then some unlimited else period.bytes? outgoing

def Budget.throttle? (budget : Budget) (scale : Nat) : Option Nat :=
  if budget.data ≤ budget.bandwidth then some scale
  else div? (min (budget.bandwidth * scale) unlimited) budget.data

def capPeer? (period : Period) (throttle : Nat) (budget : Budget) (peer : Peer) :
    Option (Budget × Peer) :=
  if peer.state ≠ .connected ∨ peer.incomingBandwidth = 0 ∨ peer.outgoingEpoch = period.now then
    some (budget, peer)
  else do
    let allowed ← period.bytes? peer.incomingBandwidth
    let data := peer.outgoingTotal.toNat
    let passing ← div? (← word? (throttle * data)) (max period.scale 1)
    if passing ≤ allowed then return (budget, peer)
    else
      let quotient ← div? (← word? (allowed * period.scale)) data
      let peers ← sub? budget.peers 1
      return ({ peers := peers
                bandwidth := budget.bandwidth - allowed
                data := budget.data - data
                adjusted := true },
        { peer.setThrottleLimit (UInt32.ofNat (max quotient 1)) with outgoingEpoch := period.now })

def capPeers? (period : Period) :
    Nat → Nat → Budget → List (Option Peer) → Option (Nat × Budget × List (Option Peer))
  | 0, throttle, budget, slots =>
    if budget.peers = 0 ∨ !budget.adjusted then some (throttle, budget, slots) else none
  | rounds + 1, throttle, budget, slots =>
    if budget.peers = 0 ∨ !budget.adjusted then some (throttle, budget, slots)
    else do
      let throttle ← budget.throttle? period.scale
      let (budget, slots) ←
        sweep? (capPeer? period throttle) { budget with adjusted := false } slots
      capPeers? period rounds throttle budget slots

/-- How many connections there are, and how many bytes they have queued. -/
def tally? (peers : List Peer) : Option (Nat × Nat) :=
  peers.foldlM (fun (count, data) peer ↦ do
    return (← word? (count + 1), ← word? (data + peer.outgoingTotal.toNat))) (0, 0)

def shareOutgoing? (period : Period) (outgoing : UInt32) (slots : List (Option Peer)) :
    Option (List (Option Peer)) := do
  let (peers, data) ← tally? (connected slots)
  let bandwidth ← period.output? outgoing
  let (throttle, budget, slots) ←
    capPeers? period (peers + 1) period.scale ⟨peers, bandwidth, data, true⟩ slots
  if budget.peers = 0 then return slots
  else return updateConnected (period.opened throttle) slots

/-! ## Incoming bandwidth -/

def settlePeer? (now : Stamp) (share : Nat) (budget : Budget) (peer : Peer) :
    Option (Budget × Peer) :=
  let outgoing := peer.outgoingBandwidth.toNat
  if peer.state ≠ .connected ∨ peer.incomingEpoch = now ∨ outgoing = 0 ∨ share ≤ outgoing then
    some (budget, peer)
  else do
    let peers ← sub? budget.peers 1
    return ({ budget with
        peers := peers
        bandwidth := budget.bandwidth - outgoing
        adjusted := true },
      { peer with incomingEpoch := now })

def settlePeers? (now : Stamp) :
    Nat → Nat → Budget → List (Option Peer) → Option (Nat × List (Option Peer))
  | 0, share, budget, slots =>
    if budget.peers = 0 ∨ !budget.adjusted then some (share, slots) else none
  | rounds + 1, share, budget, slots =>
    if budget.peers = 0 ∨ !budget.adjusted then some (share, slots)
    else do
      let share ← div? budget.bandwidth budget.peers
      let (budget, slots) ← sweep? (settlePeer? now share) { budget with adjusted := false } slots
      settlePeers? now rounds share budget slots

def shareIncoming? (context : Context) (slots : List (Option Peer)) :
    Option (List (Option Peer)) := do
  let (peers, _) ← tally? (connected slots)
  let budget : Budget := ⟨peers, context.incomingBandwidth.toNat, 0, true⟩
  let (share, slots) ←
    if context.incomingBandwidth = 0 then some (0, slots)
    else settlePeers? context.now (peers + 1) 0 budget slots
  return updateConnected (fun peer ↦ peer.announceBandwidth
    (announced context.now share peer) context.outgoingBandwidth) slots

def run? (allocator : Allocator) (context : Context) (scale : UInt32) (table : SlotTable) :
    Option (Allocator × SlotTable) :=
  if table.connectedCount = 0 then some ({ allocator with epoch := context.now }, table)
  else do
    let slots ← shareOutgoing? (allocator.period context scale) context.outgoingBandwidth
      table.slots.toList
    let slots ← if allocator.recalculate then shareIncoming? context slots else some slots
    return ({ epoch := context.now, recalculate := false },
      { table with slots := (slots.map (·.map Peer.resetTotals)).toArray })

/-! ## There is always a result -/

section

variable {holds : Budget → List (Option Peer) → Prop} {suits : Peer → Prop} {bound : Nat}
  {visit : Budget → Peer → Budget × Peer} {visit? : Budget → Peer → Option (Budget × Peer)}

/-- A sweep has a result if its visits have one wherever what they keep holds. -/
theorem sweep?_eq (hvisit : ∀ budget peer, Visits holds suits budget peer (visit budget peer))
    (hsame : ∀ budget visited peer rest, holds budget (visited ++ some peer :: rest) →
      visit? budget peer = some (visit budget peer))
    {budget : Budget} {visited rest : List (Option Peer)}
    (h : Sweeping holds suits bound budget visited rest) :
    sweep? visit? budget rest = some (sweep visit budget rest) := by
  induction rest generalizing budget visited with
  | nil => rfl
  | cons slot rest ih =>
    cases slot with
    | none =>
      rw [sweep?, ih h.vacant]
      rfl
    | some peer =>
      have hpeer := hsame budget visited peer rest h.holds
      have hrest := ih (h.visit (hvisit budget peer))
      simp only [sweep?, sweep, hpeer, hrest, Option.bind_eq_bind, Option.bind_some]
      rfl

end

variable {period : Period} {throttle rounds whole share : Nat} {budget : Budget} {peer : Peer}
  {slots : List (Option Peer)} {now : Stamp} {context : Context}

/-- The figures of a period are words of 32 bits. -/
structure Period.Fits (period : Period) : Prop where
  elapsed : period.elapsed < 2 ^ 32
  scale : period.scale < 2 ^ 32

theorem fits_period (allocator : Allocator) (context : Context) (scale : UInt32) :
    (allocator.period context scale).Fits where
  elapsed := UInt32.toNat_lt _
  scale := UInt32.toNat_lt _

/-- The product of two words of 32 bits is a number of 64 bits. -/
theorem word?_mul {value other : Nat} (h : value < 2 ^ 32) (hother : other < 2 ^ 32) :
    word? (value * other) = some (value * other) := by
  apply word?_eq
  calc
    value * other ≤ (2 ^ 32 - 1) * (2 ^ 32 - 1) :=
      Nat.mul_le_mul (Nat.le_sub_one_of_lt h) (Nat.le_sub_one_of_lt hother)
    _ ≤ unlimited := by decide

theorem Period.Fits.bytes?_eq (h : period.Fits) (bandwidth : UInt32) :
    period.bytes? bandwidth = some (period.bytes bandwidth) := by
  have hthousand : 0 < 1000 := by decide
  rw [Period.bytes?, word?_mul (UInt32.toNat_lt bandwidth) h.elapsed]
  exact div?_eq hthousand

theorem Period.Fits.output?_eq (h : period.Fits) (outgoing : UInt32) :
    period.output? outgoing = some (period.output outgoing) := by
  unfold Period.output? Period.output
  split
  · rfl
  · exact h.bytes?_eq outgoing

theorem throttle?_eq (budget : Budget) (scale : Nat) :
    budget.throttle? scale = some (budget.throttle scale) := by
  unfold Budget.throttle? Budget.throttle
  split
  · rfl
  · exact div?_eq (by omega)

/-- A connection is capped within the range as long as it is counted. -/
theorem capPeer?_eq (hfits : period.Fits) (hthrottle : throttle ≤ period.scale)
    (hcounted : period.Exceeds throttle peer → 0 < budget.peers) :
    capPeer? period throttle budget peer = some (capPeer period throttle budget peer) := by
  have hload : word? (throttle * peer.outgoingTotal.toNat) =
      some (throttle * peer.outgoingTotal.toNat) :=
    word?_mul (Nat.lt_of_le_of_lt hthrottle hfits.scale) (UInt32.toNat_lt _)
  have hpassing : div? (throttle * peer.outgoingTotal.toNat) (max period.scale 1) =
      some (throttle * peer.outgoingTotal.toNat / max period.scale 1) :=
    div?_eq (Nat.le_max_right _ _)
  unfold capPeer? capPeer
  split
  · rfl
  · rename_i hopen
    rw [not_or, not_or, not_not] at hopen
    simp only [hfits.bytes?_eq, hload, hpassing, Option.bind_eq_bind, Option.bind_some]
    split
    · rfl
    · rename_i hexcess
      have hexceeds : period.Exceeds throttle peer :=
        ⟨hopen.1, hopen.2.1, hopen.2.2, Nat.lt_of_not_le hexcess⟩
      have hless := hexceeds.lt_outgoingTotal hthrottle
      have hproduct : word? (period.bytes peer.incomingBandwidth * period.scale) =
          some (period.bytes peer.incomingBandwidth * period.scale) :=
        word?_mul (hless.trans (UInt32.toNat_lt _)) hfits.scale
      have hquotient : div? (period.bytes peer.incomingBandwidth * period.scale)
          peer.outgoingTotal.toNat =
            some (period.bytes peer.incomingBandwidth * period.scale /
              peer.outgoingTotal.toNat) :=
        div?_eq (Nat.zero_lt_of_lt hless)
      simp only [hproduct, hquotient, sub?_eq (hcounted hexceeds), Option.bind_some]
      rfl

/-- The rounds of capping do not run out. -/
theorem capPeers?_eq (hfits : period.Fits) (h : Covers period whole budget slots)
    (hrounds : budget.adjusted = true → budget.peers < rounds) :
    capPeers? period rounds throttle budget slots =
      some (capPeers period rounds throttle budget slots) := by
  induction rounds generalizing throttle budget slots with
  | zero =>
    cases hadjusted : budget.adjusted with
    | true => exact absurd (hrounds hadjusted) (Nat.not_lt_zero _)
    | false =>
      rw [capPeers?, if_pos (.inr (by rw [hadjusted]; rfl))]
      rfl
  | succ rounds ih =>
    unfold capPeers? capPeers
    split
    · rfl
    · rename_i hgoes
      rw [not_or, Bool.not_eq_true', Bool.not_eq_false] at hgoes
      have hle := budget.throttle_le period.scale
      have hstart : Holds period whole (budget.throttle period.scale)
          { budget with adjusted := false } slots :=
        ⟨⟨h.peers, h.data, h.bandwidth⟩, budget.throttle_meets period.scale⟩
      have heq := sweep?_eq (capPeer_visits whole hle) (fun left visited peer rest hholds ↦
        capPeer?_eq hfits hle fun hexceeds ↦ (hholds.1.cap hholds.2 hle hexceeds).1)
        (.start hstart)
      obtain ⟨hnext, -, -, hfewer⟩ := h.sweep
      simp only [throttle?_eq, heq, Option.bind_eq_bind, Option.bind_some]
      refine ih hnext fun hadjusted ↦ ?_
      have hbelow := hfewer hadjusted
      have hbound := hrounds hgoes.2
      omega

/-- Counting connections that are no more than there are numbers of slots. -/
theorem tally?_eq {peers : List Peer} (h : peers.length ≤ 2 ^ 16) :
    tally? peers = some (peers.length, (peers.map (·.outgoingTotal.toNat)).sum) := by
  have hcount (peers : List Peer) : ∀ count data, count + peers.length ≤ 2 ^ 16 →
      data ≤ count * 2 ^ 32 →
      peers.foldlM (fun (count, data) peer ↦ do
          return (← word? (count + 1), ← word? (data + peer.outgoingTotal.toNat))) (count, data) =
        some (count + peers.length, data + (peers.map (·.outgoingTotal.toNat)).sum) := by
    induction peers with
    | nil =>
      intro count data _ _
      rfl
    | cons peer rest ih =>
      intro count data hcount hdata
      rw [List.length_cons] at hcount
      have htotal := UInt32.toNat_lt peer.outgoingTotal
      have hone : word? (count + 1) = some (count + 1) := by
        apply word?_eq
        rw [unlimited]
        omega
      have hsum : word? (data + peer.outgoingTotal.toNat) =
          some (data + peer.outgoingTotal.toNat) := by
        apply word?_eq
        rw [unlimited]
        omega
      have hrest := ih (count + 1) (data + peer.outgoingTotal.toNat) (by omega) (by omega)
      simp only [List.foldlM_cons, hone, hsum, Option.bind_eq_bind, Option.bind_some,
        Option.pure_def] at hrest ⊢
      rw [hrest, List.length_cons, List.map_cons, List.sum_cons]
      congr 2 <;> omega
  simpa [tally?] using hcount peers 0 0 (by simpa using h) (Nat.zero_le _)

/-- Sharing the outgoing bandwidth. -/
theorem shareOutgoing?_eq (hfits : period.Fits) (outgoing : UInt32)
    (hslots : slots.length ≤ 2 ^ 16) :
    shareOutgoing? period outgoing slots = some (shareOutgoing period outgoing slots) := by
  have htally : tally? (connected slots) =
      some ((period.start outgoing slots).peers, (period.start outgoing slots).data) :=
    tally?_eq ((length_connected_le slots).trans hslots)
  have hcapped : capPeers? period ((period.start outgoing slots).peers + 1) period.scale
      (period.start outgoing slots) slots = some (capPeers period _ period.scale _ slots) :=
    capPeers?_eq hfits (covers_start period outgoing slots) fun _ ↦ Nat.lt_succ_self _
  have hstart : (⟨(period.start outgoing slots).peers, period.output outgoing,
      (period.start outgoing slots).data, true⟩ : Budget) = period.start outgoing slots := rfl
  rw [shareOutgoing_eq]
  unfold shareOutgoing?
  simp only [htally, hfits.output?_eq, Option.bind_eq_bind, Option.bind_some, hstart, hcapped]
  split <;> rfl

/-! ## Incoming bandwidth -/

/-- A connection is set aside within the range as long as it is counted. -/
theorem settlePeer?_eq (hcounted : Undercuts now share peer → 0 < budget.peers) :
    settlePeer? now share budget peer = some (settlePeer now share budget peer) := by
  unfold settlePeer? settlePeer
  dsimp only
  split
  · rfl
  · rename_i hopen
    rw [not_or, not_or, not_or, not_not] at hopen
    obtain ⟨hstate, hunsettled, hlimited, hlt⟩ := hopen
    have hpos := hcounted ⟨hstate, hunsettled, fun hzero ↦ hlimited (congrArg _ hzero),
      Nat.lt_of_not_le hlt⟩
    rw [sub?_eq hpos]
    rfl

/-- The rounds of setting aside do not run out. -/
theorem settlePeers?_eq (h : Leaves now whole budget slots)
    (hrounds : budget.adjusted = true → budget.peers < rounds) :
    settlePeers? now rounds share budget slots =
      some (settlePeers now rounds share budget slots) := by
  induction rounds generalizing share budget slots with
  | zero =>
    cases hadjusted : budget.adjusted with
    | true => exact absurd (hrounds hadjusted) (Nat.not_lt_zero _)
    | false =>
      rw [settlePeers?, if_pos (.inr (by rw [hadjusted]; rfl))]
      rfl
  | succ rounds ih =>
    unfold settlePeers? settlePeers
    split
    · rfl
    · rename_i hgoes
      rw [not_or, Bool.not_eq_true', Bool.not_eq_false] at hgoes
      have hshare : div? budget.bandwidth budget.peers = some (budget.bandwidth / budget.peers) :=
        div?_eq (Nat.pos_of_ne_zero hgoes.1)
      have hstart : Shares now whole (budget.bandwidth / budget.peers)
          { budget with adjusted := false } slots :=
        ⟨⟨h.peers, h.bandwidth⟩, Nat.div_mul_le_self _ _⟩
      have heq := sweep?_eq (settlePeer_visits now whole _) (fun left visited peer rest hholds ↦
        settlePeer?_eq fun hundercuts ↦ (hholds.settle hundercuts).1) (.start hstart)
      obtain ⟨hnext, -, -, hfewer⟩ := h.sweep
      simp only [hshare, heq, Option.bind_eq_bind, Option.bind_some]
      refine ih hnext.1 fun hadjusted ↦ ?_
      have hbelow := hfewer hadjusted
      have hbound := hrounds hgoes.2
      omega

theorem shareIncoming?_eq (context : Context) (hslots : slots.length ≤ 2 ^ 16) :
    shareIncoming? context slots = some (shareIncoming context slots) := by
  have htally := tally?_eq ((length_connected_le slots).trans hslots)
  have hpeers : total (among Peer.incomingEpoch context.now fun _ ↦ 1) slots ≤
      (connected slots).length := by
    rw [← total_one]
    exact total_le_total fun peer _ ↦ among_le _ _ _ peer
  have hsettled : settlePeers? context.now ((connected slots).length + 1) 0
      ⟨(connected slots).length, context.incomingBandwidth.toNat, 0, true⟩ slots =
        some (settlePeers context.now _ 0 _ slots) :=
    settlePeers?_eq ⟨hpeers, rfl⟩ fun _ ↦ Nat.lt_succ_self _
  unfold shareIncoming? shareIncoming
  dsimp only
  rw [show slots.reduceOption.filter (·.state == .connected) = connected slots from rfl]
  simp only [htally, hsettled, Option.bind_eq_bind, Option.bind_some]
  split <;> rfl

/-! ## The whole allocation -/

/-- Sharing the bandwidth among connections that are no more than there are numbers of slots stays
within the range, and it ends. -/
theorem run?_eq (allocator : Allocator) (context : Context) (scale : UInt32) {table : SlotTable}
    (hcapacity : table.capacity ≤ 2 ^ 16) :
    allocator.run? context scale table = some (allocator.run context scale table) := by
  have houtgoing := shareOutgoing?_eq (fits_period allocator context scale)
    context.outgoingBandwidth (show table.slots.toList.length ≤ 2 ^ 16 from hcapacity)
  have hlength : (shareOutgoing (allocator.period context scale) context.outgoingBandwidth
      table.slots.toList).length ≤ 2 ^ 16 :=
    (shareOutgoing_throttles (allocator.period context scale) context.outgoingBandwidth
      table.slots.toList).length_eq ▸ hcapacity
  have hincoming := shareIncoming?_eq context hlength
  unfold run? run
  split
  · rfl
  · rw [houtgoing, Option.bind_eq_bind, Option.bind_some]
    cases allocator.recalculate with
    | true =>
      rw [if_pos rfl, hincoming]
      rfl
    | false => rfl

end Allocator

end ReliableDatagram
