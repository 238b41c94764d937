/-!
# Wrapping millisecond stamps

Every datagram carries a 32-bit millisecond stamp, and the clock behind it wraps.
Two stamps are ordered by the distance from one to the other around the circle:
a distance of one day or more is read as the other direction. Stamps less than a
day apart therefore compare as the times they were taken at.
-/

namespace ReliableDatagram

/-- A reading of the millisecond clock, modulo `2 ^ 32`. -/
abbrev Stamp := UInt32

namespace Stamp

/-- One day in milliseconds: the horizon within which stamps are comparable. -/
def horizon : UInt32 := 86400000

/-- `a` was taken before `b`: going forward from `b` to `a` takes a day or more. -/
def before (a b : Stamp) : Bool := decide (horizon ≤ a - b)

def after (a b : Stamp) : Bool := decide (horizon ≤ b - a)

def notAfter (a b : Stamp) : Bool := !after a b

def notBefore (a b : Stamp) : Bool := !before a b

/-- The milliseconds between two stamps, whichever was taken first. -/
def distance (a b : Stamp) : UInt32 :=
  if horizon ≤ a - b then b - a else a - b

variable {a b : Stamp}

theorem before_iff : before a b = true ↔ horizon ≤ a - b := decide_eq_true_iff

theorem notBefore_iff : notBefore a b = true ↔ ¬ horizon ≤ a - b := by
  rw [notBefore, Bool.not_eq_true', ← Bool.not_eq_true, before_iff]

theorem after_eq (a b : Stamp) : after a b = before b a := rfl

theorem notAfter_eq (a b : Stamp) : notAfter a b = notBefore b a := rfl

@[simp] theorem distance_self (a : Stamp) : distance a a = 0 := by
  rw [distance, UInt32.sub_self, ite_self]

theorem distance_of_before (h : before a b = true) : distance a b = b - a :=
  if_pos (before_iff.mp h)

theorem distance_of_notBefore (h : notBefore a b = true) : distance a b = a - b :=
  if_neg (notBefore_iff.mp h)

end Stamp

end ReliableDatagram
