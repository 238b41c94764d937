import ReliableDatagram.Traffic
import ReliableDatagram.Proofs.Smoothing
import Mathlib.Algebra.Ring.Int.Defs
import Mathlib.Algebra.Ring.Nat

/-!
# What the loss estimate keeps to

The loss of an interval is a share of the whole, although commands of an earlier interval may be
among those that are lost. So the estimate is a filter of shares, its deviation is one of their
distances, and neither exceeds the whole. The estimate is computed with signed 64-bit numbers. As
long as the whole is at most half of all words, the product of a count and the whole is such a
number, and then so is everything else on the way.
-/

namespace ReliableDatagram

/-! ## Signed 64-bit numbers -/

namespace Long

/-- A value that has to be a signed 64-bit number. -/
def narrow (value : Int) : Option Int :=
  if -2 ^ 63 ≤ value ∧ value < 2 ^ 63 then some value else none

/-- A quotient rounded toward zero; the divisor must not be zero. -/
def divide (dividend divisor : Int) : Option Int :=
  if divisor = 0 then none else narrow (dividend.tdiv divisor)

/-- A computation goes on with a value that is a signed 64-bit number. -/
theorem narrow_bind {α : Type} {value : Int} (hrange : -2 ^ 63 ≤ value ∧ value < 2 ^ 63)
    (rest : Int → Option α) : (narrow value >>= rest) = rest value := by
  rw [narrow, if_pos hrange, Option.bind_eq_bind, Option.bind_some]

/-- A quotient is no greater than its dividend. -/
theorem divide_eq_some {dividend divisor : Int} (hdivisor : divisor ≠ 0)
    (hrange : -2 ^ 63 < dividend ∧ dividend < 2 ^ 63) :
    divide dividend divisor = some (dividend.tdiv divisor) := by
  have hle := Int.natAbs_tdiv_le_natAbs dividend divisor
  rw [divide, if_neg hdivisor, narrow, if_pos (by omega)]

theorem divide_bind {α : Type} {dividend divisor : Int} (hdivisor : divisor ≠ 0)
    (hrange : -2 ^ 63 < dividend ∧ dividend < 2 ^ 63) (rest : Int → Option α) :
    (divide dividend divisor >>= rest) = rest (dividend.tdiv divisor) := by
  rw [divide_eq_some hdivisor hrange, Option.bind_eq_bind, Option.bind_some]

end Long

/-! ## The loss of an interval -/

/-- What is sampled if `lost` of `sent` commands are lost. -/
def lossShare (scale : UInt32) (sent lost : Nat) : Nat := min lost sent * scale.toNat / sent

theorem lossShare_le (scale : UInt32) (sent lost : Nat) :
    lossShare scale sent lost ≤ scale.toNat := by
  refine Nat.div_le_of_le_mul ?_
  exact Nat.mul_le_mul_right _ (Nat.min_le_right lost sent)

namespace LossMeter

theorem sample_eq (meter : LossMeter) (scale : UInt32) :
    meter.sample scale = lossShare scale meter.sent.toNat meter.lost.toNat := by
  rw [sample, lossShare, UInt32.toNat_min, Int.ofNat_tdiv]

/-- The loss of an interval, step by step with signed 64-bit numbers. -/
def sampleLong (meter : LossMeter) (scale : UInt32) : Option Int := do
  let lost ← Long.narrow (min meter.lost meter.sent).toNat
  let whole ← Long.narrow scale.toNat
  let product ← Long.narrow (lost * whole)
  let sent ← Long.narrow meter.sent.toNat
  Long.divide product sent

/-- A count of commands times at most half of all words is a signed 64-bit number. -/
theorem sampleLong_eq (meter : LossMeter) {scale : UInt32} (hscale : scale.toNat ≤ 2 ^ 31)
    (hsent : meter.sent ≠ 0) : meter.sampleLong scale = some (meter.sample scale) := by
  have hcount := meter.sent.toNat_lt
  have hlost := (min meter.lost meter.sent).toNat_lt
  have hproduct : (min meter.lost meter.sent).toNat * scale.toNat ≤ (2 ^ 32 - 1) * 2 ^ 31 :=
    Nat.mul_le_mul (by omega) hscale
  have hpositive : (meter.sent.toNat : Int) ≠ 0 := fun hzero ↦
    hsent (UInt32.toNat_inj.mp (Int.natCast_eq_zero.mp hzero))
  rw [sampleLong, Long.narrow_bind (by omega), Long.narrow_bind (by omega), ← Int.natCast_mul,
    Long.narrow_bind (by omega), Long.narrow_bind (by omega),
    Long.divide_eq_some hpositive (by omega), sample]

end LossMeter

/-! ## The filter -/

namespace Traffic

variable {traffic : Traffic} {scale : UInt32}

/-- The estimated loss and its deviation are parts of the whole. -/
structure Scaled (scale : UInt32) (traffic : Traffic) : Prop where
  loss_le : traffic.loss ≤ scale
  lossVariance_le : traffic.lossVariance ≤ scale

/-- The estimate moves an eighth of the way to the share that was lost. -/
theorem loss_foldLoss (traffic : Traffic) {sampled : Nat} (hsampled : sampled < 4294967296) :
    ((traffic.foldLoss sampled).loss.toNat : Int) = approach 8 traffic.loss.toNat sampled :=
  Word.toNat_ofIntSat_approach 8 traffic.loss.toNat_lt hsampled

/-- The deviation gives a quarter of itself for a quarter of the distance to what was lost. -/
theorem lossVariance_foldLoss (traffic : Traffic) {sampled : Nat}
    (hsampled : sampled < 4294967296) :
    (traffic.foldLoss sampled).lossVariance.toNat =
      traffic.lossVariance.toNat - traffic.lossVariance.toNat / 4 +
        ((sampled : Int) - traffic.loss.toNat).natAbs / 4 := by
  have hloss := traffic.loss.toNat_lt
  have hvariance := traffic.lossVariance.toNat_lt
  have hquarter : (traffic.lossVariance.toNat : Int).tdiv 4 =
      ((traffic.lossVariance.toNat / 4 : Nat) : Int) := (Int.ofNat_tdiv _ 4).symm
  have hpart : (((sampled : Int) - traffic.loss.toNat).natAbs : Int).tdiv 4 =
      ((((sampled : Int) - traffic.loss.toNat).natAbs / 4 : Nat) : Int) :=
    (Int.ofNat_tdiv _ 4).symm
  simp only [foldLoss, Word.ofIntSat, Word.toNat_ofNatSat, Word.maximum, hquarter, hpart]
  omega

/-- What the deviation keeps grows with it, so it keeps at most three quarters of the whole,
rounded up, and what it gets is at most a quarter, rounded down. -/
theorem Scaled.foldLoss (h : Scaled scale traffic) {sampled : Nat}
    (hsampled : sampled ≤ scale.toNat) : Scaled scale (traffic.foldLoss sampled) := by
  obtain ⟨hloss, hvariance⟩ := h
  rw [UInt32.le_iff_toNat_le] at hloss hvariance
  have hword := scale.toNat_lt
  have hbetween := approach_between 8 traffic.loss.toNat sampled
  rw [← traffic.loss_foldLoss (by omega)] at hbetween
  refine ⟨UInt32.le_iff_toNat_le.mpr (by omega), UInt32.le_iff_toNat_le.mpr ?_⟩
  rw [traffic.lossVariance_foldLoss (by omega)]
  omega

def foldLossLong (traffic : Traffic) (sampled : Int) : Option Traffic := do
  let loss ← Long.narrow traffic.loss.toNat
  let difference ← Long.narrow (sampled - loss)
  let variance ← Long.narrow traffic.lossVariance.toNat
  let quarter ← Long.divide variance 4
  let kept ← Long.narrow (variance - quarter)
  let distance ← Long.narrow difference.natAbs
  let part ← Long.divide distance 4
  let variance ← Long.narrow (kept + part)
  let move ← Long.divide difference 8
  let loss ← Long.narrow (loss + move)
  return { traffic with loss := Word.ofIntSat loss, lossVariance := Word.ofIntSat variance }

theorem foldLossLong_eq (traffic : Traffic) {sampled : Nat} (hsampled : sampled < 4294967296) :
    traffic.foldLossLong sampled = some (traffic.foldLoss sampled) := by
  have hloss := traffic.loss.toNat_lt
  have hvariance := traffic.lossVariance.toNat_lt
  have hquarter := Int.natAbs_tdiv_le_natAbs traffic.lossVariance.toNat 4
  have hpart := Int.natAbs_tdiv_le_natAbs ((sampled : Int) - traffic.loss.toNat).natAbs 4
  have hmove := Int.natAbs_tdiv_le_natAbs ((sampled : Int) - traffic.loss.toNat) 8
  rw [foldLossLong, Long.narrow_bind (by omega), Long.narrow_bind (by omega),
    Long.narrow_bind (by omega), Long.divide_bind (by decide) (by omega),
    Long.narrow_bind (by omega), Long.narrow_bind (by omega),
    Long.divide_bind (by decide) (by omega), Long.narrow_bind (by omega),
    Long.divide_bind (by decide) (by omega), Long.narrow_bind (by omega)]
  rfl

end Traffic

/-! ## Runs of the meter -/

namespace LossMeter

variable {settings : Settings} {meter next : LossMeter} {traffic after : Traffic} {now : Stamp}
  {sent lost : Nat}

/-- What becomes of a fresh meter and fresh counters when commands are counted and the estimate is
brought up to date at any times, with how many commands were `sent` and how many `lost` since the
last fold. The meter counts them with words, so that they have to be fewer than the words. -/
inductive Metered (settings : Settings) : Nat → Nat → LossMeter → Traffic → Prop where
  | fresh : Metered settings 0 0 {} {}
  | sends {sent lost : Nat} {meter : LossMeter} {traffic : Traffic}
      (hrun : Metered settings sent lost meter traffic) (hfew : sent + 1 < 2 ^ 32) :
      Metered settings (sent + 1) lost meter.recordSent traffic
  | loses {sent lost : Nat} {meter : LossMeter} {traffic : Traffic}
      (hrun : Metered settings sent lost meter traffic) (hfew : lost + 1 < 2 ^ 32) :
      Metered settings sent (lost + 1) meter.recordLost traffic
  /-- An update comes before the interval is over. -/
  | waits {sent lost : Nat} {meter next : LossMeter} {traffic after : Traffic} {now : Stamp}
      (hrun : Metered settings sent lost meter traffic)
      (hupdate : meter.update now traffic settings = (false, next, after)) :
      Metered settings sent lost next after
  | folds {sent lost : Nat} {meter next : LossMeter} {traffic after : Traffic} {now : Stamp}
      (hrun : Metered settings sent lost meter traffic)
      (hupdate : meter.update now traffic settings = (true, next, after)) :
      Metered settings 0 0 next after

theorem update_waits (h : meter.update now traffic settings = (false, next, after)) :
    next.sent = meter.sent ∧ next.lost = meter.lost ∧ after = traffic := by
  unfold update at h
  repeat' split at h
  · cases h
    exact ⟨rfl, rfl, rfl⟩
  · cases h
    exact ⟨rfl, rfl, rfl⟩
  · cases h

theorem update_folds (h : meter.update now traffic settings = (true, next, after)) :
    meter.sent ≠ 0 ∧ next = { epoch := now } ∧
      after = traffic.foldLoss (meter.sample settings.lossScale) := by
  unfold update at h
  repeat' split at h
  · cases h
  · cases h
  · rename_i hover
    cases h
    exact ⟨fun hnone ↦ hover (.inr hnone), rfl, rfl⟩

/-- The meter says how many commands were counted. -/
theorem Metered.counts (h : Metered settings sent lost meter traffic) :
    meter.sent.toNat = sent ∧ meter.lost.toNat = lost := by
  induction h with
  | fresh => exact ⟨rfl, rfl⟩
  | sends _ hfew ih =>
    refine ⟨?_, ih.2⟩
    rw [recordSent, UInt32.toNat_add, ih.1, UInt32.toNat_one, Nat.mod_eq_of_lt hfew]
  | loses _ hfew ih =>
    refine ⟨ih.1, ?_⟩
    rw [recordLost, UInt32.toNat_add, ih.2, UInt32.toNat_one, Nat.mod_eq_of_lt hfew]
  | waits _ hupdate ih =>
    obtain ⟨hsent, hlost, -⟩ := update_waits hupdate
    rwa [hsent, hlost]
  | folds _ hupdate _ =>
    obtain ⟨-, rfl, -⟩ := update_folds hupdate
    exact ⟨rfl, rfl⟩

theorem Metered.scaled (h : Metered settings sent lost meter traffic) :
    traffic.Scaled settings.lossScale := by
  induction h with
  | fresh => exact ⟨UInt32.zero_le, UInt32.zero_le⟩
  | sends _ _ ih | loses _ _ ih => exact ih
  | waits _ hupdate ih =>
    obtain ⟨-, -, rfl⟩ := update_waits hupdate
    exact ih
  | folds _ hupdate ih =>
    obtain ⟨-, -, rfl⟩ := update_folds hupdate
    rw [sample_eq]
    exact ih.foldLoss (lossShare_le _ _ _)

def updateLong (meter : LossMeter) (now : Stamp) (traffic : Traffic) (settings : Settings) :
    Option (Bool × LossMeter × Traffic) :=
  if meter.epoch = 0 then
    some (false, { meter with epoch := now }, traffic)
  else if Stamp.distance now meter.epoch < settings.lossInterval ∨ meter.sent = 0 then
    some (false, meter, traffic)
  else do
    let sampled ← meter.sampleLong settings.lossScale
    let folded ← traffic.foldLossLong sampled
    return (true, { epoch := now }, folded)

theorem updateLong_eq (meter : LossMeter) (now : Stamp) (traffic : Traffic)
    (hscale : settings.lossScale.toNat ≤ 2 ^ 31) :
    meter.updateLong now traffic settings = some (meter.update now traffic settings) := by
  unfold updateLong update
  split
  · rfl
  · split
    · rfl
    · rename_i hover
      have hshare := lossShare_le settings.lossScale meter.sent.toNat meter.lost.toNat
      rw [meter.sampleLong_eq hscale fun hnone ↦ hover (.inr hnone), Option.bind_eq_bind,
        Option.bind_some, sample_eq, traffic.foldLossLong_eq (by omega)]
      rfl

/-- In any run the estimated loss and its deviation are at most the whole. An update computes them
with signed 64-bit numbers, of which none is divided by zero, and if it folds an interval, then the
new estimate is between the old one and the share of the interval that was lost. -/
theorem Metered.loss_bounded (hscale : settings.lossScale.toNat ≤ 2 ^ 31)
    (h : Metered settings sent lost meter traffic) :
    traffic.Scaled settings.lossScale ∧
      ∀ now, meter.updateLong now traffic settings = some (meter.update now traffic settings) ∧
        ∀ next after, meter.update now traffic settings = (true, next, after) →
          min traffic.loss.toNat (lossShare settings.lossScale sent lost) ≤ after.loss.toNat ∧
            after.loss.toNat ≤
              max traffic.loss.toNat (lossShare settings.lossScale sent lost) := by
  refine ⟨h.scaled, fun now ↦ ⟨meter.updateLong_eq now traffic hscale, ?_⟩⟩
  intro next after hupdate
  obtain ⟨rfl, rfl⟩ := h.counts
  obtain ⟨-, -, rfl⟩ := update_folds hupdate
  rw [sample_eq]
  have hshare := lossShare_le settings.lossScale meter.sent.toNat meter.lost.toNat
  have hbetween := approach_between 8 traffic.loss.toNat
    (lossShare settings.lossScale meter.sent.toNat meter.lost.toNat)
  rw [← traffic.loss_foldLoss (by omega)] at hbetween
  omega

/-- One command is sent and two are lost, one of which had been sent before. The whole is
sampled. -/
theorem loss_bounded_of_lost_twice :
    Metered {} 1 2 { epoch := 1, sent := 1, lost := 2 } {} ∧
      ({ epoch := 1, sent := 1, lost := 2 } : LossMeter).updateLong 10001 {} {} =
        some (true, { epoch := 10001 }, { loss := 8192, lossVariance := 16384 }) ∧
      (8192 : UInt32).toNat ≤ max 0 (lossShare 65536 1 2) := by
  have hrun : Metered {} 1 2 { epoch := 1, sent := 1, lost := 2 } {} :=
    (((Metered.fresh.waits (rfl : update {} 1 {} {} = (false, { epoch := 1 }, {}))).sends
      (by decide)).loses (by decide)).loses (by decide)
  have hfold : update { epoch := 1, sent := 1, lost := 2 } 10001 {} {} =
      (true, { epoch := 10001 }, { loss := 8192, lossVariance := 16384 }) := by decide
  obtain ⟨-, hnow⟩ := Metered.loss_bounded (by decide) hrun
  obtain ⟨hlong, hbetween⟩ := hnow 10001
  exact ⟨hrun, hlong.trans (congrArg some hfold), (hbetween _ _ hfold).2⟩

end LossMeter

end ReliableDatagram
