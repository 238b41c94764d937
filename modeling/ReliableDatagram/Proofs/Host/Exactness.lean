import ReliableDatagram.Proofs.Host.Slots

/-!
# The list of the vacant slots

A table lists exactly its vacant slots, in ascending order. Freeing a slot puts it in at its
place, and a new connection takes the first one, which is the lowest. So how many slots are
occupied can be told from the list alone. There are never so many slots that one of them gets
the number that stands for no slot.
-/

namespace ReliableDatagram

namespace SlotTable

/-! ## Ascending lists -/

theorem insertAscending_of_lt {index : Nat} {indices : List Nat}
    (h : ∀ other ∈ indices, index < other) : insertAscending index indices = index :: indices := by
  cases indices with
  | nil => rfl
  | cons next rest => rw [insertAscending, if_pos (h next List.mem_cons_self)]

/-- A number goes where it would have been left in when others were taken out. -/
theorem insertAscending_filter {index : Nat} {indices : List Nat} {isKept : Nat → Bool}
    (hsorted : indices.Pairwise (· < ·)) (hmem : index ∈ indices) (hout : isKept index = false) :
    insertAscending index (indices.filter isKept) =
      indices.filter fun other ↦ other == index || isKept other := by
  induction indices with
  | nil => cases hmem
  | cons next rest ih =>
    obtain ⟨hnext, hrest⟩ := List.pairwise_cons.mp hsorted
    rcases List.mem_cons.mp hmem with rfl | hlater
    · have hsame : rest.filter (fun other ↦ other == index || isKept other) =
          rest.filter isKept := by
        refine List.filter_congr fun other hother ↦ ?_
        rw [beq_false_of_ne (Nat.ne_of_gt (hnext other hother)), Bool.false_or]
      rw [List.filter_cons_of_neg (by simp [hout]), List.filter_cons_of_pos (by simp), hsame]
      refine insertAscending_of_lt fun other hother ↦ ?_
      exact hnext other (List.mem_of_mem_filter hother)
    · have hlt : next < index := hnext index hlater
      have hne : (next == index) = false := beq_false_of_ne (Nat.ne_of_lt hlt)
      cases hkept : isKept next with
      | true =>
        rw [List.filter_cons_of_pos hkept, List.filter_cons_of_pos (by simp [hkept]),
          insertAscending, if_neg (Nat.not_lt.mpr (Nat.le_of_lt hlt)), ih hrest hlater]
      | false =>
        rw [List.filter_cons_of_neg (by simp [hkept]),
          List.filter_cons_of_neg (by simp [hne, hkept]), ih hrest hlater]

/-- The first number that is left in is the lowest one, and the others are left in without it. -/
theorem filter_eq_cons_of_sorted {index : Nat} {indices rest : List Nat} {isKept : Nat → Bool}
    (hsorted : indices.Pairwise (· < ·)) (h : indices.filter isKept = index :: rest) :
    index ∈ indices ∧ isKept index = true ∧
      (∀ other ∈ indices, other < index → isKept other = false) ∧
      rest = indices.filter fun other ↦ other != index && isKept other := by
  obtain ⟨lower, higher, rfl, hlower, hindex, rfl⟩ := List.filter_eq_cons_iff.mp h
  obtain ⟨-, hhigher, -⟩ := List.pairwise_append.mp hsorted
  have hhigher := (List.pairwise_cons.mp hhigher).1
  refine ⟨by simp, hindex, fun other hother hlt ↦ ?_, ?_⟩
  · rcases List.mem_append.mp hother with hother | hother
    · exact eq_false_of_ne_true (hlower other hother)
    · rcases List.mem_cons.mp hother with rfl | hother
      · exact absurd hlt (Nat.lt_irrefl _)
      · exact absurd hlt (Nat.not_lt.mpr (Nat.le_of_lt (hhigher other hother)))
  · have hnone : lower.filter (fun other ↦ other != index && isKept other) = [] := by
      refine List.filter_eq_nil_iff.mpr fun other hother ↦ ?_
      rw [Bool.and_eq_true, not_and]
      exact fun _ ↦ hlower other hother
    have hsame : higher.filter (fun other ↦ other != index && isKept other) =
        higher.filter isKept := by
      refine List.filter_congr fun other hother ↦ ?_
      rw [bne_iff_ne.mpr (Nat.ne_of_gt (hhigher other hother)), Bool.true_and]
    rw [List.filter_append, hnone, List.nil_append, List.filter_cons_of_neg (by simp), hsame]

/-! ## Exact tables -/

variable {table after : SlotTable} {id : PeerId} {peer fresh : Peer}

def isVacant (table : SlotTable) (index : Nat) : Bool := (table.get? (UInt16.ofNat index)).isNone

/-- There are fewer slots than numbers, and the vacant ones are listed, each once and in
ascending order, and no others. -/
structure Exact (table : SlotTable) : Prop where
  capacity : table.capacity ≤ 65535
  vacant : table.vacant = (List.range table.capacity).filter table.isVacant

theorem Exact.toNat_ofNat (h : table.Exact) {index : Nat} (hindex : index < table.capacity) :
    (UInt16.ofNat index).toNat = index := by
  rw [UInt16.toNat_ofNat', Nat.mod_eq_of_lt]
  have hcapacity := h.capacity
  omega

theorem Exact.sound (h : table.Exact) : table.Sound where
  nodup := by
    rw [h.vacant]
    exact List.nodup_range.filter _
  capacity := Nat.le_succ_of_le h.capacity
  small index hindex := by
    rw [h.vacant] at hindex
    exact List.mem_range.mp (List.mem_filter.mp hindex).1
  vacant index hindex := by
    rw [h.vacant] at hindex
    exact Option.isNone_iff_eq_none.mp (List.mem_filter.mp hindex).2

/-- The number that stands for no slot is not that of a slot. -/
theorem Exact.get?_unassigned (h : table.Exact) : table.get? unassignedPeer = none := by
  cases hslot : table.get? unassignedPeer with
  | none => rfl
  | some peer =>
    have hlt : 65535 < table.capacity := lt_capacity_of_get? hslot
    exact absurd h.capacity (Nat.not_le.mpr hlt)

/-- The slots that are not listed as vacant are those that are occupied. -/
theorem Exact.size_eq (h : table.Exact) : table.size = table.occupied.length := by
  have hcount : (List.range table.capacity).length = _ :=
    List.length_eq_countP_add_countP table.isVacant
  rw [List.length_range] at hcount
  have hoccupied : table.occupied.length =
      (List.range table.capacity).countP fun index ↦ ¬ table.isVacant index := by
    rw [occupied, List.length_filterMap_eq_countP]
    refine List.countP_congr fun index _ ↦ ?_
    simp [isVacant, Option.isSome_iff_ne_none, Option.isNone_iff_eq_none]
  rw [size, h.vacant, ← List.countP_eq_length_filter, hoccupied]
  have hcapacity : table.slots.size = table.capacity := rfl
  omega

theorem exact_empty (capacity : Nat) (settings : Settings) : (empty capacity settings).Exact where
  capacity := by
    rw [SlotTable.capacity, empty, Array.size_replicate]
    exact Nat.min_le_right _ _
  vacant := by
    have hvacant (index : Nat) : (empty capacity settings).isVacant index = true := by
      simp only [isVacant, empty, get?, Array.getElem?_replicate]
      split <;> rfl
    rw [SlotTable.capacity, empty, Array.size_replicate]
    exact (List.filter_eq_self.mpr fun index _ ↦ hvacant index).symm

/-- Only which slots are vacant matters. -/
theorem Exact.congr (h : table.Exact) (hcapacity : after.capacity = table.capacity)
    (hvacant : after.vacant = table.vacant)
    (hslots : ∀ id, (after.get? id).isNone = (table.get? id).isNone) : after.Exact where
  capacity := hcapacity ▸ h.capacity
  vacant := by
    have hsame : after.isVacant = table.isVacant := funext fun index ↦ hslots _
    rw [hvacant, hcapacity, hsame, h.vacant]

theorem Exact.set (h : table.Exact) {next : Peer} (hpeer : table.get? id = some peer) :
    (table.set id next).Exact := by
  refine h.congr (table.capacity_set id next) rfl fun other ↦ ?_
  rw [get?_set hpeer]
  split
  · rename_i heq
    rw [heq, hpeer]
    rfl
  · rfl

theorem Exact.slotwise {becomes : Peer → Peer → Prop} {slots : List (Option Peer)}
    (h : table.Exact) (hslots : Slotwise becomes table.slots.toList slots) :
    Exact { table with slots := slots.toArray } :=
  h.congr hslots.capacity rfl hslots.isNone_get?

theorem ofNat_eq_iff {index : Nat} (hindex : index < 65536) :
    UInt16.ofNat index = id ↔ index = id.index := by
  rw [← UInt16.toNat_inj, UInt16.toNat_ofNat', Nat.mod_eq_of_lt hindex]
  rfl

theorem Exact.release (h : table.Exact) (id : PeerId) : (table.release id).Exact := by
  cases hpeer : table.get? id with
  | none =>
    rw [SlotTable.release, hpeer]
    exact h
  | some peer =>
    have hvacant : (table.release id).vacant = insertAscending id.index table.vacant := by
      rw [SlotTable.release, hpeer]
    have hcapacity : (table.release id).capacity = table.capacity := by
      rw [SlotTable.release, hpeer]
      exact Array.size_setIfInBounds
    refine ⟨hcapacity ▸ h.capacity, ?_⟩
    have hmem : id.index ∈ List.range table.capacity :=
      List.mem_range.mpr (lt_capacity_of_get? hpeer)
    have htaken : table.isVacant id.index = false := by
      rw [isVacant, PeerId.index, UInt16.ofNat_toNat, hpeer]
      rfl
    rw [hvacant, hcapacity, h.vacant, insertAscending_filter List.pairwise_lt_range hmem htaken]
    refine List.filter_congr fun other hother ↦ ?_
    have hsmall : other < 65536 := by
      have hlt := List.mem_range.mp hother
      have hbound := h.capacity
      omega
    rw [isVacant, isVacant, get?_release]
    by_cases heq : other = id.index
    · rw [if_pos ((ofNat_eq_iff hsmall).mpr heq), heq, beq_self_eq_true, Bool.true_or]
      rfl
    · rw [if_neg (heq ∘ (ofNat_eq_iff hsmall).mp), beq_false_of_ne heq, Bool.false_or]

/-! ## New connections -/

structure IsLowest (table : SlotTable) (id : PeerId) : Prop where
  inside : id.index < table.capacity
  vacant : table.get? id = none
  lowest : ∀ lower < id, table.get? lower ≠ none

/-- Exactly the slot that is taken is no longer vacant. -/
theorem Exact.isVacant_set (h : table.Exact) {index other : Nat} (hindex : index < table.capacity)
    (hother : other < table.capacity) (next : Peer) :
    (table.set (UInt16.ofNat index) next).isVacant other =
      (other != index && table.isVacant other) := by
  by_cases heq : other = index
  · have hset : (table.set (UInt16.ofNat index) next).get? (UInt16.ofNat index) = some next := by
      apply get?_set_self
      rwa [PeerId.index, h.toNat_ofNat hindex]
    rw [heq, bne_self_eq_false, Bool.false_and, isVacant, hset]
    rfl
  · have hne : UInt16.ofNat other ≠ UInt16.ofNat index := by
      intro hsame
      have hnumber := congrArg UInt16.toNat hsame
      rw [h.toNat_ofNat hother, h.toNat_ofNat hindex] at hnumber
      exact heq hnumber
    rw [bne_iff_ne.mpr heq, Bool.true_and, isVacant, isVacant, get?_set_of_ne _ _ hne]

theorem Exact.allocate (h : table.Exact)
    (hallocate : table.allocate = some (id, fresh, after)) :
    after.Exact ∧ table.IsLowest id ∧ fresh = Peer.vacant id table.settings := by
  unfold SlotTable.allocate at hallocate
  split at hallocate
  · cases hallocate
  · rename_i index rest hvacant
    cases hallocate
    rw [h.vacant] at hvacant
    obtain ⟨hmem, hfree, hlower, hrest⟩ :=
      filter_eq_cons_of_sorted List.pairwise_lt_range hvacant
    have hindex := List.mem_range.mp hmem
    have hnumber := h.toNat_ofNat hindex
    refine ⟨⟨?_, ?_⟩, ⟨?_, Option.isNone_iff_eq_none.mp hfree, fun lower hlt hnone ↦ ?_⟩, rfl⟩
    · rw [capacity_set]
      exact h.capacity
    · rw [vacant_set, capacity_set]
      exact hrest.trans (List.filter_congr fun other hother ↦
        (h.isVacant_set hindex (List.mem_range.mp hother) _).symm)
    · rwa [PeerId.index, hnumber]
    · have hless : lower.toNat < index := by
        rw [← hnumber]
        exact UInt16.lt_iff_toNat_lt.mp hlt
      have htaken := hlower lower.toNat (List.mem_range.mpr (Nat.lt_trans hless hindex)) hless
      rw [isVacant, UInt16.ofNat_toNat, hnone] at htaken
      cases htaken

end SlotTable

end ReliableDatagram
