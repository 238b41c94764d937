import ReliableDatagram.Proofs.Peer.Composition
import Mathlib.Data.List.Infix
import Mathlib.Data.List.Perm.Subperm
import Mathlib.Data.List.Nodup
import Mathlib.Data.Nat.ModEq
import Mathlib.Tactic.Ring

/-!
# The share that the throttle admits

The admission counter turns around the scale by the same step for every unreliable command. If
the step and the scale have no common divisor, then the counter stands at every place exactly once
in as many commands as the scale has places, wherever it starts. A command passes at the places up
to the throttle, so the throttle admits that share exactly, whatever else happens to the pacing in
the meantime, as long as the throttle itself stays where it is.
-/

namespace ReliableDatagram

/-! ## The orbit of the counter -/

/-- A counter turned by a step that is coprime to the number of places stands at each place once
in a full turn. -/
theorem map_orbit_perm_range {scale step : ℕ} (hscale : 0 < scale)
    (hcoprime : Nat.Coprime step scale) (counter : ℕ) :
    ((List.range scale).map fun turn ↦ (counter + (turn + 1) * step) % scale).Perm
      (List.range scale) := by
  have hinjective : ∀ first ∈ List.range scale, ∀ second ∈ List.range scale,
      (counter + (first + 1) * step) % scale = (counter + (second + 1) * step) % scale →
      first = second := by
    intro first hfirst second hsecond heq
    have hturns : (first + 1) * step ≡ (second + 1) * step [MOD scale] :=
      Nat.ModEq.add_left_cancel' counter heq
    have hsame : first + 1 ≡ second + 1 [MOD scale] :=
      Nat.ModEq.cancel_right_of_coprime hcoprime.symm hturns
    exact (Nat.ModEq.add_right_cancel' 1 hsame).eq_of_lt_of_lt (List.mem_range.mp hfirst)
      (List.mem_range.mp hsecond)
  have hnodup : ((List.range scale).map fun turn ↦
      (counter + (turn + 1) * step) % scale).Nodup := List.nodup_range.map_on hinjective
  have hsubset : ((List.range scale).map fun turn ↦
      (counter + (turn + 1) * step) % scale) ⊆ List.range scale := by
    intro place hplace
    obtain ⟨turn, -, rfl⟩ := List.mem_map.mp hplace
    exact List.mem_range.mpr (Nat.mod_lt _ hscale)
  refine (List.subperm_of_subset hnodup hsubset).perm_of_length_le ?_
  rw [List.length_map]

/-- How many of the first places are at most at a bound. -/
theorem countP_range_le (bound scale : ℕ) :
    (List.range scale).countP (· ≤ bound) = min (bound + 1) scale := by
  induction scale with
  | zero => rfl
  | succ scale ih =>
    rw [List.range_succ, List.countP_append, List.countP_singleton, ih]
    simp only [decide_eq_true_eq]
    split <;> omega

namespace Pacing

variable {pacing : Pacing} {scale step : ℕ} {throttle : UInt32}

/-! ## What happens to the pacing -/

inductive Action where
  | pass
  /-- A sample feeds the estimate alone. -/
  | observe (sample : UInt32)
  /-- A sample moves the throttle alone. -/
  | adjust (sample : UInt32)
  | record (now : Stamp) (sample : UInt32)
  | configure (parameters : ThrottleParameters)
  | setLimit (limit : UInt32)
deriving DecidableEq

def perform (pacing : Pacing) : Action → Pacing
  | .pass => pacing.passUnreliable.2
  | .observe sample => pacing.observe sample
  | .adjust sample => pacing.adjustThrottle sample
  | .record now sample => pacing.recordRoundTrip now sample
  | .configure parameters => pacing.configure parameters
  | .setLimit limit => pacing.setLimit limit

/-- What the commands are told that ask to pass, one after the other. -/
def answers (pacing : Pacing) : List Action → List Bool
  | [] => []
  | .pass :: rest => pacing.passUnreliable.1 :: answers (pacing.perform .pass) rest
  | action :: rest => answers (pacing.perform action) rest

/-- The counter turns by `step` around `scale`. -/
structure Geared (scale step : ℕ) (pacing : Pacing) : Prop where
  scale_eq : pacing.scale.toNat = scale
  step_eq : pacing.step.toNat = step
  counter_lt : pacing.counter.toNat < scale

theorem geared_start {settings : Settings} (hscale : 1 ≤ settings.throttleScale) :
    Geared settings.throttleScale.toNat settings.throttleStep.toNat (start settings) :=
  ⟨rfl, rfl, UInt32.le_iff_toNat_le.mp hscale⟩

/-- Where the counter moves on is a place as well, since the sum of a place and the step is a
word. -/
theorem Geared.toNat_counter_pass (h : Geared scale step pacing) (hfits : scale + step ≤ 2 ^ 32) :
    (pacing.perform .pass).counter.toNat = (pacing.counter.toNat + step) % scale := by
  obtain ⟨rfl, rfl, hcounter⟩ := h
  have hscale : (max pacing.scale 1).toNat = pacing.scale.toNat := by
    rw [UInt32.toNat_max, UInt32.toNat_one]
    omega
  have hsum : (pacing.counter + pacing.step).toNat =
      pacing.counter.toNat + pacing.step.toNat := by
    rw [UInt32.toNat_add, Nat.mod_eq_of_lt (by omega)]
  rw [perform, passUnreliable, UInt32.toNat_mod, hscale, hsum]

theorem Geared.pass (h : Geared scale step pacing) (hfits : scale + step ≤ 2 ^ 32) :
    Geared scale step (pacing.perform .pass) := by
  refine ⟨h.scale_eq, h.step_eq, ?_⟩
  rw [h.toNat_counter_pass hfits]
  exact Nat.mod_lt _ (Nat.zero_lt_of_lt h.counter_lt)

/-- Only a command that asks to pass turns the counter, and nothing moves the scale or the
step. -/
theorem perform_gear (pacing : Pacing) {action : Action} (haction : action ≠ .pass) :
    (pacing.perform action).scale = pacing.scale ∧ (pacing.perform action).step = pacing.step ∧
      (pacing.perform action).counter = pacing.counter := by
  cases action with
  | pass => exact absurd rfl haction
  | observe sample | configure parameters | setLimit limit => exact ⟨rfl, rfl, rfl⟩
  | adjust sample =>
    rw [perform, adjustThrottle_eq]
    exact ⟨rfl, rfl, rfl⟩
  | record now sample =>
    obtain ⟨_, _, _, _, _, hrecorded⟩ := pacing.recordRoundTrip_eq now sample
    rw [perform, hrecorded]
    exact ⟨rfl, rfl, rfl⟩

theorem Geared.perform_of_ne (h : Geared scale step pacing) {action : Action}
    (haction : action ≠ .pass) :
    Geared scale step (pacing.perform action) ∧
      (pacing.perform action).counter = pacing.counter := by
  obtain ⟨hscale, hstep, hcounter⟩ := pacing.perform_gear haction
  exact ⟨⟨hscale ▸ h.scale_eq, hstep ▸ h.step_eq, hcounter ▸ h.counter_lt⟩, hcounter⟩

theorem Geared.foldl_perform (h : Geared scale step pacing) (hfits : scale + step ≤ 2 ^ 32)
    (actions : List Action) : Geared scale step (actions.foldl perform pacing) := by
  induction actions generalizing pacing with
  | nil => exact h
  | cons action rest ih =>
    by_cases haction : action = .pass
    · exact ih (haction ▸ h.pass hfits)
    · exact ih (h.perform_of_ne haction).1

/-! ## The share -/

/-- While the throttle stays where it is, a command passes if the counter has then turned to a
place up to it. -/
theorem Geared.answers_eq (h : Geared scale step pacing) (hfits : scale + step ≤ 2 ^ 32)
    (actions : List Action)
    (hthrottle : ∀ early, early <+: actions → (early.foldl perform pacing).throttle = throttle) :
    pacing.answers actions = (List.range (actions.count .pass)).map fun turn ↦
      decide ((pacing.counter.toNat + (turn + 1) * step) % scale ≤ throttle.toNat) := by
  induction actions generalizing pacing with
  | nil => rfl
  | cons action rest ih =>
    have hrest : ∀ early, early <+: rest →
        (early.foldl perform (pacing.perform action)).throttle = throttle := fun early hearly ↦
      hthrottle (action :: early) (List.cons_prefix_cons.mpr ⟨rfl, hearly⟩)
    by_cases haction : action = .pass
    · subst haction
      have hfirst : pacing.passUnreliable.1 =
          decide ((pacing.counter.toNat + step) % scale ≤ throttle.toNat) := by
        rw [← h.toNat_counter_pass hfits, ← hthrottle [] List.nil_prefix]
        exact decide_eq_decide.mpr UInt32.le_iff_toNat_le
      rw [answers, hfirst, ih (h.pass hfits) hrest, List.count_cons_self, List.range_succ_eq_map,
        List.map_cons, List.map_map, h.toNat_counter_pass hfits]
      refine congrArg₂ List.cons (by rw [Nat.zero_add, Nat.one_mul]) (List.map_congr_left ?_)
      -- The turns of the rest start one step later.
      intro turn _
      rw [Function.comp_apply, Nat.mod_add_mod, Nat.succ_eq_add_one]
      congr 3
      ring
    · obtain ⟨hgeared, hcounter⟩ := h.perform_of_ne haction
      rw [List.count_cons_of_ne haction, ← hcounter, ← ih hgeared hrest]
      cases action <;> first | rfl | exact absurd rfl haction

/-- In a full turn the throttle lets as many commands pass as there are places up to it. -/
theorem Geared.count_answers (h : Geared scale step pacing) (hfits : scale + step ≤ 2 ^ 32)
    (hcoprime : Nat.Coprime step scale) (actions : List Action)
    (hpasses : actions.count .pass = scale)
    (hthrottle : ∀ early, early <+: actions → (early.foldl perform pacing).throttle = throttle) :
    (pacing.answers actions).count true = min (throttle.toNat + 1) scale := by
  have hscale : 0 < scale := Nat.zero_lt_of_lt h.counter_lt
  have horbit := map_orbit_perm_range hscale hcoprime pacing.counter.toNat
  calc (pacing.answers actions).count true
      = ((List.range scale).map fun turn ↦
          (pacing.counter.toNat + (turn + 1) * step) % scale).countP (· ≤ throttle.toNat) := by
        rw [h.answers_eq hfits actions hthrottle, hpasses, List.count, List.countP_map,
          List.countP_map]
        congr 1
        funext turn
        exact beq_true _
    _ = (List.range scale).countP (· ≤ throttle.toNat) := horbit.countP_eq _
    _ = min (throttle.toNat + 1) scale := countP_range_le _ _

/-- From any state that a fresh pacing comes to, `scale` commands in a row are admitted exactly as
the throttle says, if it stays where it is: one for each place up to the throttle, and all of them
if it is at least at the scale. -/
theorem admits_share {settings : Settings} {throttle : UInt32} (before during : List Action)
    (hscale : 1 ≤ settings.throttleScale)
    (hcoprime : Nat.Coprime settings.throttleStep.toNat settings.throttleScale.toNat)
    (hfits : settings.throttleScale.toNat + settings.throttleStep.toNat ≤ 2 ^ 32)
    (hpasses : during.count .pass = settings.throttleScale.toNat)
    (hthrottle : ∀ early, early <+: during →
      (early.foldl perform (before.foldl perform (start settings))).throttle = throttle) :
    ((before.foldl perform (start settings)).answers during).count true =
      min (throttle.toNat + 1) settings.throttleScale.toNat :=
  ((geared_start hscale).foldl_perform hfits before).count_answers hfits hcoprime during hpasses
    hthrottle

/-- Three commands turn the counter of a throttle that a slow sample has closed to 30. -/
theorem admits_share_after_slow_sample :
    ((([.record 1 600, .record 2 1300, .pass, .pass, .pass] : List Action).foldl perform
      (start {})).answers
        (List.replicate 20 .pass ++ [.observe 9] ++ List.replicate 12 .pass)).count true = 31 := by
  refine @admits_share {} 30 _ _ (by decide) (by decide) (by decide) (by decide) ?_
  simp only [← List.mem_inits]
  decide

/-! ## Commands that meet the throttle one after the other -/

theorem throttle_of_prefix_replicate_pass {early : List Action} {count : ℕ}
    (hearly : early <+: List.replicate count .pass) :
    (early.foldl perform pacing).throttle = pacing.throttle := by
  obtain ⟨-, hreplicate⟩ := List.prefix_replicate_iff.mp hearly
  rw [hreplicate]
  induction early.length generalizing pacing with
  | zero => rfl
  | succ length ih =>
    rw [List.replicate_succ, List.foldl_cons, ih]
    rfl

/-- A command asks to pass for each payload that a composer tries, and the payloads that it sends
are those that were admitted. -/
theorem Sifts.countP_passed {last : Pacing} {tried passed : List Outgoing}
    (h : pacing.Sifts tried passed last) :
    passed.countP (·.hasPayload) =
      (pacing.answers (List.replicate (tried.countP (·.hasPayload)) .pass)).count true := by
  induction h with
  | nil pacing => rfl
  | plain hpayload _ ih =>
    have hplain := Bool.eq_false_iff.mp hpayload
    rw [List.countP_cons_of_neg hplain, List.countP_cons_of_neg hplain, ih]
  | passes hpayload hthrottle _ ih =>
    rw [List.countP_cons_of_pos hpayload, List.countP_cons_of_pos hpayload, ih,
      List.replicate_succ, answers, perform, hthrottle, List.count_cons_self]
  | refused hpayload hthrottle _ ih =>
    rw [List.countP_cons_of_pos hpayload, ih, List.replicate_succ, answers, perform, hthrottle,
      List.count_cons_of_ne Bool.false_ne_true]

/-- Of a full turn of unreliable payloads a composer sends the throttle's share. -/
theorem Sifts.countP_passed_of_turn {last : Pacing} {tried passed : List Outgoing}
    (h : pacing.Sifts tried passed last) (hgeared : Geared scale step pacing)
    (hfits : scale + step ≤ 2 ^ 32) (hcoprime : Nat.Coprime step scale)
    (htried : tried.countP (·.hasPayload) = scale) :
    passed.countP (·.hasPayload) = min (pacing.throttle.toNat + 1) scale := by
  rw [h.countP_passed, htried]
  exact hgeared.count_answers hfits hcoprime _ List.count_replicate_self
    fun _ ↦ throttle_of_prefix_replicate_pass

end Pacing

end ReliableDatagram
