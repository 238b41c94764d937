import ReliableDatagram.Stamp

/-!
# Stamps and the moments they stand for

A stamp gives its moment up to whole turns of the clock. The difference of two stamps is how much
later the first moment is or, if it is the earlier, what the way on to the other leaves of a turn.
Stamps do not show which of the two it is, so a difference of less than a day is taken for the one
and a greater one for the other. That is right for moments less than a day apart. If the first
moment is the earlier, it is right even further apart, as long as a day is left of the turn.
-/

namespace ReliableDatagram

namespace Stamp

variable {moment other : Nat}

/-! ## Less than a turn apart -/

theorem toNat_ofNat_sub_of_le (hle : other ≤ moment) (hturn : moment < other + 4294967296) :
    (UInt32.ofNat moment - UInt32.ofNat other).toNat = moment - other := by
  simp only [UInt32.toNat_sub, UInt32.toNat_ofNat']
  omega

theorem toNat_ofNat_sub_of_lt (hlt : moment < other) (hturn : other < moment + 4294967296) :
    (UInt32.ofNat moment - UInt32.ofNat other).toNat = 4294967296 - (other - moment) := by
  simp only [UInt32.toNat_sub, UInt32.toNat_ofNat']
  omega

/-- One of two moments is taken for the earlier if it is and the way to the other leaves at least a
day of the turn, or if it is later by a day or more. -/
theorem before_ofNat_iff (hmoment : moment < other + 4294967296)
    (hother : other < moment + 4294967296) :
    before (.ofNat moment) (.ofNat other) = true ↔
      moment < other ∧ other ≤ moment + 4208567296 ∨ other + 86400000 ≤ moment := by
  have hhorizon : horizon.toNat = 86400000 := rfl
  rw [before_iff, UInt32.le_iff_toNat_le, hhorizon]
  rcases Nat.lt_or_ge moment other with hlt | hle
  · rw [toNat_ofNat_sub_of_lt hlt hother]
    omega
  · rw [toNat_ofNat_sub_of_le hle hmoment]
    omega

theorem notBefore_ofNat_iff (hmoment : moment < other + 4294967296)
    (hother : other < moment + 4294967296) :
    notBefore (.ofNat moment) (.ofNat other) = true ↔
      ¬ (moment < other ∧ other ≤ moment + 4208567296 ∨ other + 86400000 ≤ moment) := by
  rw [notBefore_iff, ← before_iff, before_ofNat_iff hmoment hother]

/-- The distance from a later moment is the way back, unless that takes a day or more: then it is
what the way back leaves of a turn. -/
theorem toNat_distance_ofNat_of_le (hle : other ≤ moment) (hturn : moment < other + 4294967296) :
    (distance (.ofNat moment) (.ofNat other)).toNat =
      if moment - other < 86400000 then moment - other else 4294967296 - (moment - other) := by
  split
  · have hnear : notBefore (.ofNat moment) (.ofNat other) = true :=
      (notBefore_ofNat_iff hturn (by omega)).mpr (by omega)
    rw [distance_of_notBefore hnear, toNat_ofNat_sub_of_le hle hturn]
  · have hfar : before (.ofNat moment) (.ofNat other) = true :=
      (before_ofNat_iff hturn (by omega)).mpr (by omega)
    rw [distance_of_before hfar, toNat_ofNat_sub_of_lt (by omega) hturn]

theorem toNat_distance_ofNat_of_lt (hlt : moment < other) (hturn : other ≤ moment + 4208567296) :
    (distance (.ofNat moment) (.ofNat other)).toNat = other - moment := by
  have hbefore : before (.ofNat moment) (.ofNat other) = true :=
    (before_ofNat_iff (by omega) (by omega)).mpr (.inl ⟨hlt, hturn⟩)
  rw [distance_of_before hbefore, toNat_ofNat_sub_of_le (by omega) (by omega)]

/-! ## Where stamps agree with their moments -/

theorem before_ofNat_iff_lt (hmoment : moment < other + 86400000)
    (hother : other ≤ moment + 4208567296) :
    before (.ofNat moment) (.ofNat other) = true ↔ moment < other := by
  rw [before_ofNat_iff (by omega) (by omega)]
  omega

theorem notBefore_ofNat_iff_le (hmoment : moment < other + 86400000)
    (hother : other ≤ moment + 4208567296) :
    notBefore (.ofNat moment) (.ofNat other) = true ↔ other ≤ moment := by
  rw [notBefore_ofNat_iff (by omega) (by omega)]
  omega

theorem toNat_distance_ofNat (hmoment : moment < other + 86400000)
    (hother : other ≤ moment + 4208567296) :
    (distance (.ofNat moment) (.ofNat other)).toNat = ((moment : Int) - other).natAbs := by
  rcases Nat.lt_or_ge moment other with hlt | hle
  · rw [toNat_distance_ofNat_of_lt hlt hother]
    omega
  · rw [toNat_distance_ofNat_of_le hle (by omega), if_pos (by omega)]
    omega

/-- However often the clock has turned before two moments or between them, if they are less than a
day apart, their stamps are ordered as they are, and are as far apart from either side. -/
theorem agree_within_day (moment other : Nat) (h : ((moment : Int) - other).natAbs < 86400000) :
    (before (.ofNat moment) (.ofNat other) = true ↔ moment < other) ∧
      (after (.ofNat moment) (.ofNat other) = true ↔ other < moment) ∧
      (notAfter (.ofNat moment) (.ofNat other) = true ↔ moment ≤ other) ∧
      (notBefore (.ofNat moment) (.ofNat other) = true ↔ other ≤ moment) ∧
      (distance (.ofNat moment) (.ofNat other)).toNat = ((moment : Int) - other).natAbs ∧
      (distance (.ofNat other) (.ofNat moment)).toNat = ((moment : Int) - other).natAbs := by
  have hmoment : moment < other + 86400000 := by omega
  have hother : other < moment + 86400000 := by omega
  refine ⟨before_ofNat_iff_lt hmoment (by omega), ?_, ?_, notBefore_ofNat_iff_le hmoment (by omega),
    toNat_distance_ofNat hmoment (by omega), ?_⟩
  · rw [after_eq]
    exact before_ofNat_iff_lt hother (by omega)
  · rw [notAfter_eq]
    exact notBefore_ofNat_iff_le hother (by omega)
  · rw [toNat_distance_ofNat hother (by omega)]
    omega

/-- The clock turns between the two moments, for the second time, and only a millisecond is missing
to a day. -/
theorem agree_within_day_turning :
    ((8589934590 : Int) - 8676334589).natAbs < 86400000 ∧
      before (.ofNat 8589934590) (.ofNat 8676334589) = true ∧
      after (.ofNat 8589934590) (.ofNat 8676334589) = false ∧
      notAfter (.ofNat 8589934590) (.ofNat 8676334589) = true ∧
      notBefore (.ofNat 8589934590) (.ofNat 8676334589) = false ∧
      (distance (.ofNat 8589934590) (.ofNat 8676334589)).toNat = 86399999 ∧
      (distance (.ofNat 8676334589) (.ofNat 8589934590)).toNat = 86399999 := by
  have hday : ((8589934590 : Int) - 8676334589).natAbs < 86400000 := by decide
  obtain ⟨hbefore, hafter, hnotAfter, hnotBefore, hdistance, hreturn⟩ :=
    agree_within_day 8589934590 8676334589 hday
  exact ⟨hday, hbefore.mpr (by decide), Bool.eq_false_iff.mpr (mt hafter.mp (by decide)),
    hnotAfter.mpr (by decide), Bool.eq_false_iff.mpr (mt hnotBefore.mp (by decide)),
    hdistance, hreturn⟩

/-- A day apart, the later of two moments is taken for the earlier. -/
example : before (.ofNat 86400000) (.ofNat 0) = true := by decide

end Stamp

end ReliableDatagram
