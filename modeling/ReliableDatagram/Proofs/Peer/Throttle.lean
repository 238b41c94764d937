import ReliableDatagram.Proofs.Peer.Gauges

/-!
# How the throttle opens

A sample that is faster than the reference of the last interval opens the throttle on unreliable
traffic by the acceleration, but no further than its limit. The acceleration is any word that
the other end or the application has chosen, and the sum is one of words: it wraps around if it
is too large, and then the faster sample closes the throttle. Since neither the throttle nor its
limit exceeds what the settings and the host allow, that takes an acceleration close to the
greatest word.
-/

namespace ReliableDatagram

namespace Pacing

variable {pacing : Pacing} {sample bound : UInt32}

/-- What a faster sample is to open the throttle to. -/
def opened (pacing : Pacing) : Nat :=
  min (pacing.throttle.toNat + pacing.parameters.acceleration.toNat) pacing.limit.toNat

/-- The throttle and the acceleration together are more than a word can hold. -/
def Overflows (pacing : Pacing) : Prop :=
  4294967296 ≤ pacing.throttle.toNat + pacing.parameters.acceleration.toNat

/-- A sample faster than a reference that outweighs its deviation. -/
def IsFaster (pacing : Pacing) (sample : UInt32) : Prop :=
  sample < pacing.lastRoundTrip ∧ pacing.lastVariance < pacing.lastRoundTrip

/-- Of all that a sample does, only the adjustment moves the throttle, and its limit stays. -/
theorem recordRoundTrip_gauge (pacing : Pacing) (now : Stamp) (sample : UInt32) :
    (pacing.recordRoundTrip now sample).throttle = (pacing.adjustThrottle sample).throttle ∧
      (pacing.recordRoundTrip now sample).limit = pacing.limit := by
  obtain ⟨_, _, _, _, _, hrecorded⟩ := pacing.recordRoundTrip_eq now sample
  rw [hrecorded]
  exact ⟨rfl, rfl⟩

/-- A faster sample opens the throttle by the acceleration as a sum of words. -/
theorem throttle_recordRoundTrip (h : pacing.IsFaster sample) (now : Stamp) :
    (pacing.recordRoundTrip now sample).throttle =
      min (pacing.throttle + pacing.parameters.acceleration) pacing.limit := by
  have hsteady : ¬ pacing.lastRoundTrip ≤ pacing.lastVariance := UInt32.not_le.mpr h.2
  rw [(pacing.recordRoundTrip_gauge now sample).1, adjustThrottle, if_neg hsteady, if_pos h.1]

/-- A faster sample opens the throttle as it is to if the sum does not overflow. -/
theorem toNat_throttle_of_not_overflows (h : pacing.IsFaster sample)
    (hfits : ¬ pacing.Overflows) (now : Stamp) :
    (pacing.recordRoundTrip now sample).throttle.toNat = pacing.opened := by
  rw [Overflows, Nat.not_le] at hfits
  rw [throttle_recordRoundTrip h, UInt32.toNat_min, UInt32.toNat_add, Nat.mod_eq_of_lt hfits,
    opened]

/-- Otherwise it closes the throttle. -/
theorem toNat_throttle_of_overflows (h : pacing.IsFaster sample) (hwraps : pacing.Overflows)
    (now : Stamp) :
    (pacing.recordRoundTrip now sample).throttle.toNat =
        min (pacing.throttle.toNat + pacing.parameters.acceleration.toNat - 4294967296)
          pacing.limit.toNat ∧
      (pacing.recordRoundTrip now sample).throttle < pacing.throttle := by
  rw [Overflows] at hwraps
  have hthrottle := pacing.throttle.toNat_lt
  have hacceleration := pacing.parameters.acceleration.toNat_lt
  have hsum : (pacing.throttle + pacing.parameters.acceleration).toNat =
      pacing.throttle.toNat + pacing.parameters.acceleration.toNat - 4294967296 := by
    rw [UInt32.toNat_add, Nat.mod_eq_sub_mod hwraps, Nat.mod_eq_of_lt (by omega)]
  rw [UInt32.lt_iff_toNat_lt, throttle_recordRoundTrip h, UInt32.toNat_min, hsum]
  exact ⟨rfl, by omega⟩

/-- No sample opens the throttle beyond both its place and its limit. -/
theorem throttle_recordRoundTrip_le (hthrottle : pacing.throttle ≤ bound)
    (hlimit : pacing.limit ≤ bound) (now : Stamp) :
    (pacing.recordRoundTrip now sample).throttle ≤ bound := by
  rw [(pacing.recordRoundTrip_gauge now sample).1, adjustThrottle]
  rw [UInt32.le_iff_toNat_le] at hthrottle hlimit
  split
  · exact UInt32.le_iff_toNat_le.mpr hlimit
  · split
    · rw [UInt32.le_iff_toNat_le, UInt32.toNat_min]
      exact Nat.le_trans (Nat.min_le_right _ _) hlimit
    · split
      · rw [UInt32.le_iff_toNat_le, Word.subSat, Word.toNat_ofNatSat]
        omega
      · exact UInt32.le_iff_toNat_le.mpr hthrottle

end Pacing

namespace Peer

variable {peer after : Peer} {header : Header} {command : Command} {context : Context}
  {event : Option PeerEvent} {action : Action}

/-! ## Handling -/

theorem pacing_of_acknowledge {sequence : UInt32} {sentTime : Stamp}
    (h : peer.handle header command context = .ok (event, after))
    (hbody : command.body = .acknowledge sequence sentTime)
    (hheard : Stamp.before context.now sentTime = false) (hstays : event ≠ some .disconnected) :
    after.pacing =
      peer.pacing.recordRoundTrip context.now (Stamp.distance context.now sentTime) := by
  obtain ⟨handled, hperform, rfl, hafter⟩ := handle_eq_ok h
  have hhandled : handled.peer.pacing =
      peer.pacing.recordRoundTrip context.now (Stamp.distance context.now sentTime) := by
    have htakes := peer.takesAcknowledgement command.channel sequence sentTime context
    rw [perform, hbody] at hperform
    cases hperform
    exact htakes.pacing_eq hheard hstays
  rcases hafter with rfl | ⟨-, -, rfl⟩
  · exact hhandled
  · obtain ⟨_, _, heq, -⟩ := handled.peer.queueAcknowledgement_eq command header.sentTime
    rw [heq]
    exact hhandled

/-! ## Bounds -/

/-- No step opens the throttle beyond its place, its limit and what a fresh one starts with. -/
theorem Paces.throttle_le {bound : UInt32} (h : Paces peer after)
    (hinitial : peer.settings.initialThrottle ≤ bound) (hlimit : peer.pacing.limit ≤ bound)
    (hthrottle : peer.pacing.throttle ≤ bound) : after.pacing.throttle ≤ bound := by
  cases h with
  | passes count hpacing =>
    rw [hpacing, Pacing.throttle_of_prefix_replicate_pass (List.prefix_refl _)]
    exact hthrottle
  | performs action hpacing =>
    rw [hpacing]
    cases action with
    | pass | observe | configure => exact hthrottle
    | adjust sample =>
      rw [Pacing.perform, ← (peer.pacing.recordRoundTrip_gauge 0 sample).1]
      exact Pacing.throttle_recordRoundTrip_le hthrottle hlimit 0
    | record now sample => exact Pacing.throttle_recordRoundTrip_le hthrottle hlimit now
    | setLimit limit =>
      rw [UInt32.le_iff_toNat_le] at hthrottle ⊢
      rw [Pacing.perform, Pacing.setLimit, UInt32.toNat_min]
      exact Nat.le_trans (Nat.min_le_left _ _) hthrottle
  | restarts hpacing | grants _ hpacing =>
    rw [hpacing]
    exact hinitial

/-- What a peer can come to be as long as its throttle may open no further than a bound, whatever
is asked of it, whatever its host does with it and whatever arrives. -/
inductive Capped (id : UInt16) (settings : Settings) (bound : UInt32) : Peer → Prop where
  | vacant : Capped id settings bound (vacant id settings)
  | undergo {peer after : Peer} (h : Capped id settings bound peer)
      (hlimit : peer.pacing.limit ≤ bound) (hundergoes : Undergoes peer after) :
      Capped id settings bound after

variable {id : UInt16} {settings : Settings} {bound : UInt32}

/-- Nothing that can become of a peer opens its throttle beyond what a word can hold. -/
theorem Reached.capped (h : Reached id settings peer) : Capped id settings 4294967295 peer := by
  have hword (word : UInt32) : word ≤ 4294967295 := by
    have hless := word.toNat_lt
    rw [UInt32.le_iff_toNat_le]
    exact Nat.le_of_lt_succ hless
  induction h with
  | vacant => exact .vacant
  | act _ hact ih => exact ih.undergo (hword _) (undergoes_of_act hact)
  | operate _ hoperates ih => exact ih.undergo (hword _) (.operates hoperates)

theorem Capped.throttle_le (h : Capped id settings bound peer)
    (hinitial : settings.initialThrottle ≤ bound) :
    peer.settings = settings ∧ peer.pacing.throttle ≤ bound := by
  induction h with
  | vacant => exact ⟨rfl, hinitial⟩
  | undergo _ hlimit hundergoes ih =>
    obtain ⟨hsettings, hthrottle⟩ := ih
    refine ⟨hundergoes.settings_eq.trans hsettings, ?_⟩
    rw [← hsettings] at hinitial
    exact hundergoes.measures.pacing.throttle_le hinitial hlimit hthrottle

/-! ## Faster round trips -/

/-- An acknowledgement whose sample is faster than the reference opens the throttle as far as it
is to, and does not close it, unless the throttle and the acceleration together overflow a word.
Then it closes the throttle, whatever its limit. Of a peer whose throttle may open no further than
a bound, this takes an acceleration that overflows a word together with the bound. -/
theorem Capped.opens_unless_overflows (h : Capped id settings bound peer)
    (hinitial : settings.initialThrottle ≤ bound) {sequence : UInt32} {sentTime : Stamp}
    (hhandle : peer.handle header command context = .ok (event, after))
    (hbody : command.body = .acknowledge sequence sentTime)
    (hheard : Stamp.before context.now sentTime = false) (hstays : event ≠ some .disconnected)
    (hfaster : peer.pacing.IsFaster (Stamp.distance context.now sentTime)) :
    (¬ peer.pacing.Overflows → after.pacing.throttle.toNat = peer.pacing.opened ∧
        (peer.pacing.throttle ≤ peer.pacing.limit →
          peer.pacing.throttle ≤ after.pacing.throttle)) ∧
      (peer.pacing.Overflows → after.pacing.throttle < peer.pacing.throttle ∧
        after.pacing.throttle.toNat = min (peer.pacing.throttle.toNat +
          peer.pacing.parameters.acceleration.toNat - 4294967296) peer.pacing.limit.toNat) ∧
      (peer.pacing.Overflows →
        4294967296 ≤ bound.toNat + peer.pacing.parameters.acceleration.toNat) := by
  have hthrottle := UInt32.le_iff_toNat_le.mp (h.throttle_le hinitial).2
  rw [pacing_of_acknowledge hhandle hbody hheard hstays]
  refine ⟨fun hfits ↦ ?_, fun hwraps ↦ ?_, fun hwraps ↦ ?_⟩
  · have hopened := Pacing.toNat_throttle_of_not_overflows hfaster hfits context.now
    refine ⟨hopened, fun hlimit ↦ ?_⟩
    rw [UInt32.le_iff_toNat_le] at hlimit ⊢
    rw [hopened, Pacing.opened]
    omega
  · exact (Pacing.toNat_throttle_of_overflows hfaster hwraps context.now).symm
  · exact Nat.le_trans hwraps (Nat.add_le_add_right hthrottle _)

/-- The other end grants a connection and sets the greatest acceleration. -/
def rush : List Action :=
  let context : Context := ⟨1000, 0, 0⟩
  let header : Header := ⟨0, 0, 1, 1000, 7⟩
  [.connect ⟨"10.0.0.1", 4000⟩ 1 7 context,
    .handle header ⟨controlChannel, Command.acknowledgeFlag, 1,
      .verifyConnect ⟨3, 1400, 32768, 1, 0, 0, Settings.throttle {}⟩⟩ context,
    .handle header ⟨controlChannel, Command.acknowledgeFlag, 2,
      .throttleConfigure ⟨5000, 4294967295, 2⟩⟩ context]

/-- The first fast round trip closes the throttle by one, although it is within its limit. -/
theorem opens_unless_overflows_rush : ∃ events peer after,
    (vacant 0 {}).run rush = .ok (events, peer) ∧
    peer.handle ⟨0, 0, 1, 1010, 7⟩ ⟨controlChannel, 0, 0, .acknowledge 1 1000⟩ ⟨1010, 0, 0⟩ =
      .ok (none, after) ∧ peer.pacing.limit = 32 ∧ peer.pacing.throttle = 32 ∧
    peer.pacing.opened = 32 ∧ after.pacing.throttle.toNat = 31 ∧
    after.pacing.throttle < peer.pacing.throttle := by
  have hreplay : ((vacant 0 {}).run rush).toOption.any (fun result ↦
      result.2.pacing.limit = 32 && result.2.pacing.throttle = 32 &&
        result.2.pacing.parameters.acceleration = 4294967295 &&
        result.2.pacing.lastRoundTrip = 500 && result.2.pacing.lastVariance = 0 &&
        (result.2.handle ⟨0, 0, 1, 1010, 7⟩ ⟨controlChannel, 0, 0, .acknowledge 1 1000⟩
          ⟨1010, 0, 0⟩).toOption.any (·.1 = none)) = true := by
    decide +kernel
  obtain ⟨⟨events, peer⟩, hrun, hpeer⟩ := exists_of_any_toOption hreplay
  simp only [Bool.and_eq_true, decide_eq_true_eq] at hpeer
  obtain ⟨⟨⟨⟨⟨hlimit, hthrottle⟩, hacceleration⟩, hreference⟩, hdeviation⟩, hhandles⟩ := hpeer
  obtain ⟨⟨event, after⟩, hhandle, hevent⟩ := exists_of_any_toOption hhandles
  obtain rfl := of_decide_eq_true hevent
  have hfaster : peer.pacing.IsFaster (Stamp.distance 1010 1000) := by
    rw [Pacing.IsFaster, hreference, hdeviation]
    decide
  have hwraps : peer.pacing.Overflows := by
    rw [Pacing.Overflows, hthrottle, hacceleration]
    decide
  obtain ⟨-, hcloses, -⟩ := (Reached.vacant.run hrun).capped.opens_unless_overflows (by decide)
    hhandle rfl rfl nofun hfaster
  obtain ⟨hless, hclosed⟩ := hcloses hwraps
  rw [hthrottle, hacceleration, hlimit] at hclosed
  refine ⟨events, peer, after, hrun, hhandle, hlimit, hthrottle, ?_, hclosed.trans ?_, hless⟩
  · rw [Pacing.opened, hthrottle, hacceleration, hlimit]
    decide
  · decide

end Peer

end ReliableDatagram
