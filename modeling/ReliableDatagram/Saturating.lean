/-!
# Saturating arithmetic

Sums, differences and products of 32-bit words that stop at the ends of the range
instead of wrapping. Each operation is the one of the natural numbers, cut off at
the greatest word; so is the conversion of an integer, which is cut off at both ends.
-/

namespace ReliableDatagram

/-- A 32-bit word whose arithmetic stops at the ends of the range. -/
abbrev Word := UInt32

namespace Word

def maximum : Nat := 4294967295

def ofNatSat (value : Nat) : Word := UInt32.ofNat (min value maximum)

def ofIntSat (value : Int) : Word := ofNatSat value.toNat

def addSat (a b : Word) : Word := ofNatSat (a.toNat + b.toNat)

def subSat (a b : Word) : Word := ofNatSat (a.toNat - b.toNat)

def mulSat (a b : Word) : Word := ofNatSat (a.toNat * b.toNat)

@[simp] theorem toNat_ofNatSat (value : Nat) : (ofNatSat value).toNat = min value maximum := by
  simp only [ofNatSat, maximum, UInt32.toNat_ofNat']
  omega

end Word

end ReliableDatagram
