import ReliableDatagram.Pacing
import ReliableDatagram.Proofs.Smoothing

/-!
# Where the round trip estimate goes

The estimate and its deviation are two filters, and the second one follows the error of the first.
Whatever is measured, the estimate stays between the extremes of its first value and all samples,
and the deviation within their distance. If the same round trip is measured again and again, the
estimate comes to stand within 7 milliseconds of it, on the side that it comes from, and after
that the deviation falls to 10 or less.
-/

namespace ReliableDatagram

namespace Pacing

variable {pacing : Pacing} {sample lowest highest : UInt32}

/-! ## One sample -/

def error (pacing : Pacing) (sample : UInt32) : Nat :=
  ((sample.toNat : Int) - pacing.roundTrip.toNat).natAbs

theorem error_lt (pacing : Pacing) (sample : UInt32) : pacing.error sample < 4294967296 := by
  have hestimate := pacing.roundTrip.toNat_lt
  have hsample := sample.toNat_lt
  unfold error
  omega

/-- The estimate moves an eighth of the way to the sample, and no word is too small for it. -/
theorem roundTrip_observe (pacing : Pacing) (sample : UInt32) :
    ((pacing.observe sample).roundTrip.toNat : Int) =
      approach 8 pacing.roundTrip.toNat sample.toNat :=
  Word.toNat_ofIntSat_approach 8 pacing.roundTrip.toNat_lt sample.toNat_lt

/-- The deviation moves a quarter of the way to the error. -/
theorem variance_observe (pacing : Pacing) (sample : UInt32) :
    ((pacing.observe sample).variance.toNat : Int) =
      approach 4 pacing.variance.toNat (pacing.error sample) :=
  Word.toNat_ofIntSat_approach 4 pacing.variance.toNat_lt (pacing.error_lt sample)

/-- The error loses an eighth. -/
theorem error_observe (pacing : Pacing) (sample : UInt32) :
    (pacing.observe sample).error sample = pacing.error sample - pacing.error sample / 8 := by
  rw [error, roundTrip_observe, natAbs_sub_approach]
  rfl

/-- The distance from the deviation to the error loses a quarter. -/
theorem variance_gap_observe (pacing : Pacing) (sample : UInt32) :
    ((pacing.error sample : Int) - (pacing.observe sample).variance.toNat).natAbs =
      ((pacing.error sample : Int) - pacing.variance.toNat).natAbs -
        ((pacing.error sample : Int) - pacing.variance.toNat).natAbs / 4 := by
  rw [variance_observe, natAbs_sub_approach]

/-! ## Any samples -/

/-- The estimate lies in an interval, and the deviation is at most its width. -/
structure Within (lowest highest : UInt32) (pacing : Pacing) : Prop where
  lower : lowest ≤ pacing.roundTrip
  upper : pacing.roundTrip ≤ highest
  width : pacing.variance.toNat ≤ highest.toNat - lowest.toNat

/-- A sample from the interval leaves the estimate in it. -/
theorem Within.observe (h : Within lowest highest pacing) (hlower : lowest ≤ sample)
    (hupper : sample ≤ highest) : Within lowest highest (pacing.observe sample) := by
  obtain ⟨hestimate, hestimate', hwidth⟩ := h
  rw [UInt32.le_iff_toNat_le] at hlower hupper hestimate hestimate'
  have hroundTrip := approach_between 8 pacing.roundTrip.toNat sample.toNat
  rw [← roundTrip_observe] at hroundTrip
  have hvariance := approach_between 4 pacing.variance.toNat (pacing.error sample)
  rw [← variance_observe] at hvariance
  have herror : pacing.error sample ≤ highest.toNat - lowest.toNat := by
    unfold error
    omega
  exact ⟨UInt32.le_iff_toNat_le.mpr (by omega), UInt32.le_iff_toNat_le.mpr (by omega), by omega⟩

/-- A wider interval serves as well. -/
theorem Within.mono {lower upper : UInt32} (h : Within lowest highest pacing)
    (hlower : lower ≤ lowest) (hupper : highest ≤ upper) : Within lower upper pacing := by
  obtain ⟨hestimate, hestimate', hwidth⟩ := h
  rw [UInt32.le_iff_toNat_le] at hlower hupper
  exact ⟨UInt32.le_trans (UInt32.le_iff_toNat_le.mpr hlower) hestimate,
    UInt32.le_trans hestimate' (UInt32.le_iff_toNat_le.mpr hupper), by omega⟩

/-- The interval that holds the estimate grows only as far as the samples force it to. -/
theorem Within.foldl_observe (h : Within lowest highest pacing) (samples : List UInt32) :
    Within (samples.foldl min lowest) (samples.foldl max highest)
      (samples.foldl Pacing.observe pacing) := by
  induction samples generalizing pacing lowest highest with
  | nil => exact h
  | cons sample rest ih =>
    have hless : min lowest sample ≤ sample ∧ min lowest sample ≤ lowest := by
      simp only [UInt32.le_iff_toNat_le, UInt32.toNat_min]
      omega
    have hmore : sample ≤ max highest sample ∧ highest ≤ max highest sample := by
      simp only [UInt32.le_iff_toNat_le, UInt32.toNat_max]
      omega
    exact ih ((h.mono hless.2 hmore.2).observe hless.1 hmore.1)

/-! ## The same sample again and again -/

/-- The estimate is so close to a sample that an eighth of the error is nothing. -/
def Close (sample : UInt32) (pacing : Pacing) : Prop := pacing.error sample ≤ 7

/-- The estimate is close to a sample, and the deviation is small. -/
structure Settled (sample : UInt32) (pacing : Pacing) : Prop where
  close : Close sample pacing
  calm : pacing.variance.toNat ≤ 10

theorem Close.observe (h : Close sample pacing) : Close sample (pacing.observe sample) := by
  unfold Close at h ⊢
  rw [error_observe]
  omega

theorem Settled.observe (h : Settled sample pacing) : Settled sample (pacing.observe sample) := by
  have hbetween := approach_between 4 pacing.variance.toNat (pacing.error sample)
  rw [← variance_observe] at hbetween
  have hclose : pacing.error sample ≤ 7 := h.close
  have hcalm := h.calm
  exact ⟨h.close.observe, by omega⟩

/-- While the estimate is not close to a sample, the sample brings it closer. -/
theorem error_observe_lt (h : ¬ Close sample pacing) :
    (pacing.observe sample).error sample < pacing.error sample := by
  unfold Close at h
  rw [error_observe]
  omega

/-- While only the deviation is not small, it falls. -/
theorem variance_observe_lt (hclose : Close sample pacing) (hrough : ¬ Settled sample pacing) :
    (pacing.observe sample).variance.toNat < pacing.variance.toNat := by
  have hgap := pacing.variance_gap_observe sample
  have hvariance : ¬ pacing.variance.toNat ≤ 10 := fun hcalm ↦ hrough ⟨hclose, hcalm⟩
  unfold Close at hclose
  omega

/-- The estimate comes close to a sample that does not change, and then the deviation falls. -/
theorem exists_settled (pacing : Pacing) (sample : UInt32) :
    ∃ count, ∀ later, count ≤ later → Settled sample ((observe · sample)^[later] pacing) := by
  obtain ⟨first, hfirst⟩ := exists_settles (observe · sample) (fun _ ↦ True) (Close sample)
    (error · sample) (fun _ _ ↦ trivial) (fun _ _ ↦ Close.observe)
    (fun _ _ ↦ error_observe_lt) pacing trivial
  obtain ⟨second, hsecond⟩ := exists_settles (observe · sample) (Close sample) (Settled sample)
    (·.variance.toNat) (fun _ ↦ Close.observe) (fun _ _ ↦ Settled.observe)
    (fun _ ↦ variance_observe_lt) _ (hfirst first (Nat.le_refl _))
  refine ⟨second + first, fun later hlater ↦ ?_⟩
  obtain ⟨rest, rfl⟩ := Nat.exists_eq_add_of_le hlater
  rw [Nat.add_right_comm, Function.iterate_add_apply]
  exact hsecond _ (Nat.le_add_right _ _)

/-! ## Acknowledgements -/

/-- Of all that an acknowledgement does, only the filters move the estimate and its deviation. -/
theorem recordRoundTrip_estimate (pacing : Pacing) (now : Stamp) (sample : UInt32) :
    (pacing.recordRoundTrip now sample).roundTrip = (pacing.observe sample).roundTrip ∧
      (pacing.recordRoundTrip now sample).variance = (pacing.observe sample).variance := by
  obtain ⟨_, _, _, _, _, hrecorded⟩ := pacing.recordRoundTrip_eq now sample
  rw [hrecorded]
  exact ⟨rfl, rfl⟩

theorem Within.recordRoundTrip (h : Within lowest highest pacing) (hlower : lowest ≤ sample)
    (hupper : sample ≤ highest) (now : Stamp) :
    Within lowest highest (pacing.recordRoundTrip now sample) := by
  obtain ⟨hroundTrip, hvariance⟩ := pacing.recordRoundTrip_estimate now sample
  obtain ⟨hlowest, hhighest, hwidth⟩ := h.observe hlower hupper
  exact ⟨hroundTrip ▸ hlowest, hroundTrip ▸ hhighest, hvariance ▸ hwidth⟩

theorem Settled.recordRoundTrip (h : Settled sample pacing) (now : Stamp) :
    Settled sample (pacing.recordRoundTrip now sample) := by
  obtain ⟨hroundTrip, hvariance⟩ := pacing.recordRoundTrip_estimate now sample
  obtain ⟨hclose, hcalm⟩ := h.observe
  refine ⟨?_, hvariance ▸ hcalm⟩
  unfold Close error at hclose ⊢
  rwa [hroundTrip]

/-- Once the estimate has settled on a round trip, a command waits for its acknowledgement at most
47 milliseconds longer. -/
theorem Settled.retransmitTimeout_le (h : Settled sample pacing) :
    pacing.retransmitTimeout.toNat ≤ sample.toNat + 47 := by
  obtain ⟨hclose, hcalm⟩ := h
  unfold Close error at hclose
  have hfour : (4 : UInt32).toNat = 4 := rfl
  simp only [retransmitTimeout, Word.addSat, Word.mulSat, Word.toNat_ofNatSat, hfour]
  omega

/-! ## What both filters keep to -/

/-- After any samples the estimate lies between the least and the greatest of its first value and
them, and its deviation is at most their distance. From any state, a sample that does not change
brings the estimate to within 7 of it and the deviation to 10 or less, and keeps them there. -/
theorem observe_bounded_and_settles :
    (∀ (settings : Settings) (samples : List UInt32),
      Within (samples.foldl min settings.initialRoundTrip)
        (samples.foldl max settings.initialRoundTrip) (samples.foldl observe (start settings))) ∧
    ∀ (pacing : Pacing) (sample : UInt32), ∃ count, ∀ later, count ≤ later →
      Settled sample ((observe · sample)^[later] pacing) := by
  refine ⟨fun settings samples ↦ Within.foldl_observe ?_ samples, exists_settled⟩
  exact ⟨UInt32.le_refl _, UInt32.le_refl _, Nat.zero_le _⟩

end Pacing

end ReliableDatagram
