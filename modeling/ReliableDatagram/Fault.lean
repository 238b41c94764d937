/-!
# Faults

A fault is a broken promise of the caller, not an event of the network: the
operation that meets one has no answer at all. There are two, a pair of bounds
whose lower end lies above its upper end and a slice that leaves its bytes.
-/

namespace ReliableDatagram

/-- The ways in which a caller can break the contract of an operation. -/
inductive Fault where
  /-- A value was to be clamped between bounds that are the wrong way round. -/
  | invertedBounds
  | sliceOutOfRange
deriving DecidableEq, Repr, Inhabited

/-- An answer that passes a test is one. -/
theorem exists_of_any_toOption {ε α : Type} {result : Except ε α} {test : α → Bool}
    (h : result.toOption.any test = true) : ∃ value, result = .ok value ∧ test value = true := by
  cases result with
  | error fault => cases h
  | ok value => exact ⟨value, rfl, h⟩

structure Bounds (α : Type) where
  lower : α
  upper : α
deriving DecidableEq, Repr

namespace Bounds

variable {α : Type} [LE α] [DecidableLE α]

def contains (bounds : Bounds α) (value : α) : Bool :=
  decide (bounds.lower ≤ value) && decide (value ≤ bounds.upper)

/-- The value of the range nearest to `value`; a fault if the bounds are inverted. -/
def clamp (bounds : Bounds α) (value : α) : Except Fault α :=
  if bounds.lower ≤ bounds.upper then
    .ok (if ¬ bounds.lower ≤ value then bounds.lower
      else if ¬ value ≤ bounds.upper then bounds.upper
      else value)
  else
    .error .invertedBounds

end Bounds

end ReliableDatagram
