import ReliableDatagram.Saturating
import Mathlib.Logic.Function.Iterate
import Mathlib.Order.Defs.LinearOrder
import Mathlib.Tactic.Common

/-!
# Smoothing

A filter moves its value a fixed part of the way to each sample, and the quotient is rounded
toward zero. So the value never leaves the interval between itself and the sample, and under one
and the same sample its distance to it falls until the part that it would move rounds to nothing.
-/

namespace ReliableDatagram

/-- What a difference moves a value by has the sign of the difference, and its size is rounded
down. -/
theorem exists_tdiv_eq (difference : Int) (divisor : Nat) :
    ∃ part : Nat, part = difference.natAbs / divisor ∧ part ≤ difference.natAbs ∧
      (0 ≤ difference ∧ difference.tdiv divisor = part ∨
        difference ≤ 0 ∧ difference.tdiv divisor = -part) := by
  refine ⟨_, rfl, Nat.div_le_self _ _, ?_⟩
  rcases Int.natAbs_eq difference with heq | heq <;> rw [heq]
  · exact .inl ⟨by omega, by rw [← Int.ofNat_tdiv, Int.natAbs_natCast]⟩
  · exact .inr ⟨by omega, by rw [Int.neg_tdiv, ← Int.ofNat_tdiv, Int.natAbs_neg,
      Int.natAbs_natCast]⟩

/-- What a value becomes that moves the `divisor`-th part of the way to `target`. -/
def approach (divisor : Nat) (value target : Int) : Int := value + (target - value).tdiv divisor

/-- The value stays between where it was and the target. -/
theorem approach_between (divisor : Nat) (value target : Int) :
    min value target ≤ approach divisor value target ∧
      approach divisor value target ≤ max value target := by
  obtain ⟨part, -, hle, hmoves⟩ := exists_tdiv_eq (target - value) divisor
  unfold approach
  omega

/-- The distance to the target falls by its `divisor`-th part. -/
theorem natAbs_sub_approach (divisor : Nat) (value target : Int) :
    (target - approach divisor value target).natAbs =
      (target - value).natAbs - (target - value).natAbs / divisor := by
  obtain ⟨part, hpart, hle, hmoves⟩ := exists_tdiv_eq (target - value) divisor
  rw [← hpart]
  unfold approach
  omega

/-- A filter whose value and target are words needs no more than a word. -/
theorem Word.toNat_ofIntSat_approach (divisor : Nat) {value target : Nat}
    (hvalue : value < 4294967296) (htarget : target < 4294967296) :
    ((Word.ofIntSat (approach divisor value target)).toNat : Int) =
      approach divisor value target := by
  have hbetween := approach_between divisor value target
  rw [Word.ofIntSat, Word.toNat_ofNatSat, Word.maximum]
  omega

/-- A condition that steps keep, and that a measure drives all steps to that start under another
one which they keep, holds from some step on. -/
theorem exists_settles {α : Type} (step : α → α) (early settled : α → Prop) (measure : α → ℕ)
    (hearly : ∀ state, early state → early (step state))
    (hstays : ∀ state, early state → settled state → settled (step state))
    (hfalls : ∀ state, early state → ¬ settled state → measure (step state) < measure state)
    (state : α) (hstate : early state) :
    ∃ count, ∀ later, count ≤ later → settled (step^[later] state) := by
  induction hbound : measure state using Nat.strongRecOn generalizing state with
  | _ bound ih =>
    subst hbound
    by_cases hsettled : settled state
    · have hkept (later : ℕ) : early (step^[later] state) ∧ settled (step^[later] state) := by
        induction later with
        | zero => exact ⟨hstate, hsettled⟩
        | succ later ih =>
          rw [Function.iterate_succ_apply']
          exact ⟨hearly _ ih.1, hstays _ ih.1 ih.2⟩
      exact ⟨0, fun later _ ↦ (hkept later).2⟩
    · obtain ⟨count, hcount⟩ := ih _ (hfalls state hstate hsettled) (step state)
        (hearly state hstate) rfl
      refine ⟨count + 1, fun later hlater ↦ ?_⟩
      obtain ⟨rest, rfl⟩ := Nat.exists_eq_add_of_le' hlater
      rw [← Nat.add_assoc, Function.iterate_succ_apply]
      exact hcount _ (Nat.le_add_left _ _)

end ReliableDatagram
