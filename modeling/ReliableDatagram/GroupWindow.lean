import ReliableDatagram.Bytes

/-!
# The window of unsequenced groups

Every unsequenced command carries a group number, one higher than the last its
sender used. The receiver accepts each number once. It remembers the numbers
accepted in a window of fixed size that begins at a multiple of that size; a number
beyond the window moves the window to it, and numbers below the window are refused.
-/

namespace ReliableDatagram

structure GroupWindow where
  span : UInt32
  base : UInt32
  /-- The numbers in the window that were accepted. -/
  accepted : List UInt32
  /-- The last number given to a command of this side. -/
  lastOutgoing : UInt32
deriving DecidableEq, Repr, Inhabited

namespace GroupWindow

/-- The least multiple of 32 that is at least `size` and at least 32. -/
def roundedSpan (size : UInt32) : UInt32 :=
  UInt32.ofNat (((max size 32).toNat + 31) / 32 * 32)

/-- A window of at least `size` numbers that has seen none. -/
def empty (size : UInt32) : GroupWindow := ⟨roundedSpan size, 0, [], 0⟩

def next (window : GroupWindow) : UInt32 × GroupWindow :=
  let group := window.lastOutgoing + 1
  (group, { window with lastOutgoing := group })

/-- Accepts a number unless it lies below the window or was accepted before. -/
def accept (window : GroupWindow) (group : UInt32) : Bool × GroupWindow :=
  if window.base.toNat + window.span.toNat ≤ group.toNat then
    (true, { window with base := group - group % window.span, accepted := [group] })
  else if group < window.base ∨ group ∈ window.accepted then
    (false, window)
  else
    (true, { window with accepted := group :: window.accepted })

def reset (window : GroupWindow) : GroupWindow :=
  { window with base := 0, accepted := [], lastOutgoing := 0 }

end GroupWindow

end ReliableDatagram
