import ReliableDatagram.Negotiation
import Mathlib.Tactic.Common

/-!
# The window that both ends arrive at

One end of a connection takes its window from the tighter of two bandwidths, the other one
takes the smaller of two windows, each of which one bandwidth buys. A greater bandwidth buys
no smaller window, and no limit buys the greatest one, so both arrive at the same window.
-/

namespace ReliableDatagram

theorem Word.min_eq_right {a b : Word} (h : b ≤ a) : min a b = b := by
  rw [UInt32.min_def]
  split
  · rename_i hge
    exact UInt32.le_antisymm hge h
  · rfl

namespace Bounds

variable {α : Type} [LE α] [DecidableLE α] {bounds : Bounds α} {value nearest : α}

theorem contains_iff :
    bounds.contains value = true ↔ bounds.lower ≤ value ∧ value ≤ bounds.upper := by
  rw [contains, Bool.and_eq_true, decide_eq_true_iff, decide_eq_true_iff]

theorem exists_clamp (h : bounds.lower ≤ bounds.upper) (value : α) :
    ∃ nearest, bounds.clamp value = .ok nearest := ⟨_, if_pos h⟩

theorem clamp_inverted (h : ¬ bounds.lower ≤ bounds.upper) (value : α) :
    bounds.clamp value = .error .invertedBounds := if_neg h

/-- What a value is clamped to lies within the bounds. -/
theorem contains_of_clamp [Std.Refl (· ≤ · : α → α → Prop)] (h : bounds.clamp value = .ok nearest) :
    bounds.contains nearest = true := by
  rw [contains_iff]
  unfold clamp at h
  split at h
  · rename_i hbounds
    rw [Except.ok.injEq] at h
    subst h
    split
    · exact ⟨Std.Refl.refl _, hbounds⟩
    · rename_i hlower
      split
      · exact ⟨hbounds, Std.Refl.refl _⟩
      · rename_i hupper
        exact ⟨Decidable.not_not.mp hlower, Decidable.not_not.mp hupper⟩
  · cases h

theorem contains_min [Min α] [Std.MinEqOr α] {other : α} (h : bounds.contains value = true)
    (hother : bounds.contains other = true) : bounds.contains (min value other) = true := by
  have hchoice : min value other = value ∨ min value other = other := Std.min_eq_or
  rcases hchoice with heq | heq
  · rw [heq]
    exact h
  · rw [heq]
    exact hother

end Bounds

namespace Settings

/-- No bounds are inverted, and the datagram size that is offered lies within its bounds. -/
structure Sound (settings : Settings) : Prop where
  channelCount : settings.channelCount.lower ≤ settings.channelCount.upper
  mtu : settings.mtu.lower ≤ settings.defaultMtu ∧ settings.defaultMtu ≤ settings.mtu.upper
  window : settings.window.lower ≤ settings.window.upper

variable {settings : Settings}

theorem Sound.clampMtu_default (h : settings.Sound) :
    settings.clampMtu settings.defaultMtu = .ok settings.defaultMtu := by
  have hbounds : settings.mtu.lower ≤ settings.mtu.upper := UInt16.le_trans h.mtu.1 h.mtu.2
  simp [clampMtu, Bounds.clamp, hbounds, h.mtu.1, h.mtu.2]

theorem Sound.exists_clampMtu (h : settings.Sound) (mtu : UInt16) :
    ∃ nearest, settings.clampMtu mtu = .ok nearest := by
  have hbounds : settings.mtu.lower ≤ settings.mtu.upper := UInt16.le_trans h.mtu.1 h.mtu.2
  exact Bounds.exists_clamp hbounds mtu

theorem clampMtu_eq_ok {mtu nearest : UInt16} (h : settings.clampMtu mtu = .ok nearest) :
    settings.mtu.lower.toNat ≤ settings.mtu.upper.toNat ∧
      nearest.toNat = max settings.mtu.lower.toNat (min mtu.toNat settings.mtu.upper.toNat) := by
  unfold clampMtu Bounds.clamp at h
  simp only [UInt16.le_iff_toNat_le] at h
  split at h
  · rename_i hbounds
    cases h
    refine ⟨hbounds, ?_⟩
    split
    · omega
    · split <;> omega
  · cases h

theorem Sound.clampWindow_eq (h : settings.Sound) (window : UInt32) :
    ∃ nearest, settings.clampWindow window = .ok nearest ∧
      nearest.toNat = max settings.window.lower.toNat
        (min window.toNat settings.window.upper.toNat) := by
  have hbounds := UInt32.le_iff_toNat_le.mp h.window
  refine ⟨_, by rw [clampWindow, Bounds.clamp, if_pos h.window], ?_⟩
  simp only [UInt32.le_iff_toNat_le]
  split
  · omega
  · split <;> omega

/-- A window within the bounds stays as it is. -/
theorem Sound.clampWindow_of_within (h : settings.Sound) {window : UInt32}
    (hlower : settings.window.lower ≤ window) (hupper : window ≤ settings.window.upper) :
    settings.clampWindow window = .ok window := by
  simp [clampWindow, Bounds.clamp, h.window, hlower, hupper]

theorem windowFor_zero (settings : Settings) :
    settings.windowFor 0 = .ok settings.window.upper := if_pos rfl

theorem le_upper_of_windowFor {bandwidth window : UInt32}
    (hbuys : settings.windowFor bandwidth = .ok window) : window ≤ settings.window.upper := by
  unfold windowFor at hbuys
  split at hbuys
  · cases hbuys
    exact UInt32.le_refl _
  · exact (Bounds.contains_iff.mp (Bounds.contains_of_clamp hbuys)).2

theorem Sound.windowFor_eq (h : settings.Sound) (bandwidth : UInt32) :
    ∃ window, settings.windowFor bandwidth = .ok window ∧
      settings.window.lower ≤ window ∧ window ≤ settings.window.upper := by
  by_cases hzero : bandwidth = 0
  · exact ⟨_, by rw [hzero, windowFor_zero], h.window, UInt32.le_refl _⟩
  · obtain ⟨window, hclamp, hvalue⟩ := h.clampWindow_eq
      (Word.mulSat (bandwidth / max settings.windowScale 1) settings.window.lower)
    have hbounds := UInt32.le_iff_toNat_le.mp h.window
    refine ⟨window, by rw [windowFor, if_neg hzero, hclamp], ?_, ?_⟩ <;>
      rw [UInt32.le_iff_toNat_le] <;> omega

/-- A greater bandwidth buys no smaller window. -/
theorem Sound.windowFor_mono (h : settings.Sound) {slow fast narrow wide : UInt32}
    (hzero : slow ≠ 0) (hle : slow ≤ fast) (hslow : settings.windowFor slow = .ok narrow)
    (hfast : settings.windowFor fast = .ok wide) : narrow ≤ wide := by
  rw [UInt32.le_iff_toNat_le] at hle ⊢
  have hfastzero : fast ≠ 0 := by
    rintro rfl
    exact hzero (UInt32.toNat_inj.mp (Nat.le_zero.mp hle))
  have hunits : (slow / max settings.windowScale 1).toNat * settings.window.lower.toNat ≤
      (fast / max settings.windowScale 1).toNat * settings.window.lower.toNat := by
    rw [UInt32.toNat_div, UInt32.toNat_div]
    exact Nat.mul_le_mul_right _ (Nat.div_le_div_right hle)
  obtain ⟨small, hsmall, hsmallvalue⟩ := h.clampWindow_eq
    (Word.mulSat (slow / max settings.windowScale 1) settings.window.lower)
  obtain ⟨large, hlarge, hlargevalue⟩ := h.clampWindow_eq
    (Word.mulSat (fast / max settings.windowScale 1) settings.window.lower)
  rw [windowFor, if_neg hzero, hsmall] at hslow
  rw [windowFor, if_neg hfastzero, hlarge] at hfast
  cases hslow
  cases hfast
  rw [hsmallvalue, hlargevalue, Word.mulSat, Word.mulSat, Word.toNat_ofNatSat, Word.toNat_ofNatSat]
  omega

theorem Sound.contains_of_windowFor (h : settings.Sound) {bandwidth window : UInt32}
    (hbuys : settings.windowFor bandwidth = .ok window) :
    settings.window.contains window = true := by
  obtain ⟨other, hother, hwithin⟩ := h.windowFor_eq bandwidth
  rw [hbuys] at hother
  cases hother
  exact Bounds.contains_iff.mpr hwithin

/-- The smaller of the windows that two bandwidths buy is the one that the tighter of the
bandwidths buys. -/
theorem Sound.peerWindow_eq_min (h : settings.Sound) {remote near narrow wide : UInt32}
    (hremote : settings.windowFor remote = .ok narrow)
    (hnear : settings.windowFor near = .ok wide) :
    settings.peerWindow remote near = .ok (min narrow wide) := by
  unfold peerWindow tighterBandwidth
  by_cases hfree : remote = 0
  · rw [hfree, windowFor_zero, Except.ok.injEq] at hremote
    rw [if_pos hfree, hnear, ← hremote, Word.min_eq_right (le_upper_of_windowFor hnear)]
  · rw [if_neg hfree]
    by_cases hopen : near = 0
    · rw [hopen, windowFor_zero, Except.ok.injEq] at hnear
      rw [if_pos hopen, hremote, ← hnear, UInt32.min_def, if_pos (le_upper_of_windowFor hremote)]
    · rw [if_neg hopen]
      rcases UInt32.le_total remote near with hle | hle
      · have hwindows := h.windowFor_mono hfree hle hremote hnear
        rw [UInt32.min_def, if_pos hle, hremote, UInt32.min_def, if_pos hwindows]
      · have hwindows := h.windowFor_mono hopen hle hnear hremote
        rw [Word.min_eq_right hle, hnear, Word.min_eq_right hwindows]

theorem tighterBandwidth_assoc (a b c : UInt32) :
    tighterBandwidth (tighterBandwidth a b) c = tighterBandwidth a (tighterBandwidth b c) := by
  simp only [tighterBandwidth, ← UInt32.toNat_inj, UInt32.toNat_zero, UInt32.min_def,
    UInt32.le_iff_toNat_le]
  repeat' split
  all_goals first | rfl | omega

/-- One more bandwidth narrows a window that two others buy to the smaller one. -/
theorem Sound.peerWindow_tighter (h : settings.Sound) {remote announced near narrow wide : UInt32}
    (hremote : settings.windowFor remote = .ok narrow)
    (hannounced : settings.peerWindow announced near = .ok wide) :
    settings.peerWindow (tighterBandwidth remote announced) near = .ok (min narrow wide) := by
  rw [peerWindow, tighterBandwidth_assoc]
  exact h.peerWindow_eq_min hremote hannounced

end Settings

end ReliableDatagram
