import ReliableDatagram.Peer.Submission
import Mathlib.Data.List.Basic
import Mathlib.Data.List.Nodup
import Mathlib.Data.List.Perm.Subperm
import Mathlib.Tactic.Common

/-!
# Cutting packets up and putting them together

The fragments of a packet are the pieces of its payload, each at the multiple of the
piece length that its number says. A reassembly that has kept fragments of one packet
only, under distinct numbers, misses as many as its counter tells; when none is missing,
the kept pieces cover the packet, and the bytes are its payload.
-/

namespace ReliableDatagram

theorem Word.max_eq_left {a b : Word} (h : b ≤ a) : max a b = a := by
  rw [UInt32.max_def]
  split
  · rename_i hge
    exact UInt32.le_antisymm h hge
  · rfl

/-! ## Pieces -/

namespace Bytes

theorem chunks_eq {size : Nat} (hsize : 0 < size) {bytes : Bytes} (hbytes : bytes ≠ []) :
    bytes.chunks size = bytes.take size :: Bytes.chunks size (bytes.drop size) := by
  cases bytes with
  | nil => exact absurd rfl hbytes
  | cons byte rest =>
    obtain ⟨size, rfl⟩ : ∃ n, size = n + 1 := ⟨size - 1, by omega⟩
    rw [chunks]
    rfl

/-- The piece with a number begins at that multiple of the size. -/
theorem getElem?_chunks {size : Nat} (hsize : 0 < size) (bytes : Bytes) (k : Nat) :
    (bytes.chunks size)[k]? =
      if k * size < bytes.length then some ((bytes.drop (k * size)).take size) else none := by
  induction k generalizing bytes with
  | zero =>
    by_cases hbytes : bytes = []
    · subst hbytes
      simp [chunks]
    · rw [chunks_eq hsize hbytes, Nat.zero_mul, if_pos (List.length_pos_iff.mpr hbytes)]
      rfl
  | succ k ih =>
    by_cases hbytes : bytes = []
    · subst hbytes
      simp [chunks]
    · rw [chunks_eq hsize hbytes, List.getElem?_cons_succ, ih, List.length_drop, List.drop_drop,
        Nat.succ_mul, Nat.add_comm (k * size) size]
      have hpos := List.length_pos_iff.mpr hbytes
      congr 1
      simp only [eq_iff_iff]
      omega

theorem length_chunks {size : Nat} (hsize : 0 < size) (bytes : Bytes) :
    (bytes.chunks size).length = (bytes.length + size - 1) / size := by
  have hnone (k : Nat) : (bytes.chunks size).length ≤ k ↔ bytes.length ≤ k * size := by
    rw [← List.getElem?_eq_none_iff, getElem?_chunks hsize]
    split <;> simp <;> omega
  apply Nat.le_antisymm
  · rw [hnone]
    have := Nat.div_add_mod (bytes.length + size - 1) size
    have := Nat.mod_lt (bytes.length + size - 1) hsize
    rw [Nat.mul_comm]
    omega
  · have hle := (hnone _).mp (Nat.le_refl _)
    rw [Nat.div_le_iff_le_mul_add_pred hsize, Nat.mul_comm]
    omega

theorem length_chunks_le {size : Nat} (hsize : 0 < size) (bytes : Bytes) :
    (bytes.chunks size).length ≤ bytes.length := by
  rw [← List.getElem?_eq_none_iff, getElem?_chunks hsize, if_neg]
  exact Nat.not_lt.mpr (Nat.le_mul_of_pos_right _ hsize)

/-! ## Writing into a packet -/

theorem length_overwrite {bytes patch : Bytes} {offset : Nat}
    (h : offset + patch.length ≤ bytes.length) :
    (bytes.overwrite offset patch).length = bytes.length := by
  simp only [overwrite, List.length_append, List.length_take, List.length_drop]
  omega

theorem getElem?_overwrite {bytes patch : Bytes} {offset : Nat}
    (h : offset + patch.length ≤ bytes.length) (i : Nat) :
    (bytes.overwrite offset patch)[i]? =
      if offset ≤ i ∧ i < offset + patch.length then patch[i - offset]? else bytes[i]? := by
  have htake : (bytes.take offset).length = offset := by
    rw [List.length_take]
    omega
  rw [overwrite, List.append_assoc]
  by_cases hlow : i < offset
  · rw [List.getElem?_append_left (by omega), List.getElem?_take_of_lt hlow, if_neg (by omega)]
  · rw [List.getElem?_append_right (by omega), htake]
    by_cases hhigh : i - offset < patch.length
    · rw [List.getElem?_append_left hhigh, if_pos (by omega)]
    · rw [List.getElem?_append_right (by omega), if_neg (by omega), List.getElem?_drop]
      congr 1
      omega

end Bytes

/-! ## Fragments -/

namespace Fragment

theorem getElem?_ofPieces (start count total : UInt32) {size : Nat} (hsize : 0 < size)
    (payload : Bytes) (number offset k : Nat) :
    (ofPieces start count total number offset (payload.chunks size))[k]? =
      ((payload.chunks size)[k]?).map fun piece ↦
        { start := start
          count := count
          number := UInt32.ofNat (number + k)
          total := total
          offset := UInt32.ofNat (offset + k * size)
          payload := piece } := by
  induction k generalizing payload number offset with
  | zero =>
    by_cases hpayload : payload = []
    · subst hpayload
      simp [Bytes.chunks, ofPieces]
    · rw [Bytes.chunks_eq hsize hpayload]
      simp [ofPieces]
  | succ k ih =>
    by_cases hpayload : payload = []
    · subst hpayload
      simp [Bytes.chunks, ofPieces]
    · rw [Bytes.chunks_eq hsize hpayload, ofPieces, List.getElem?_cons_succ,
        List.getElem?_cons_succ, ih]
      -- The first piece is full whenever another one follows it.
      by_cases hmore : size ≤ payload.length
      · have hfull : (payload.take size).length = size := by
          rw [List.length_take]
          omega
        rw [hfull, Nat.succ_mul, Nat.add_right_comm number 1 k, Nat.add_assoc number k 1,
          Nat.add_assoc offset size, Nat.add_comm size (k * size)]
      · rw [List.drop_of_length_le (by omega)]
        simp [Bytes.chunks]

theorem length_ofPieces (start count total : UInt32) (number offset : Nat) (pieces : List Bytes) :
    (ofPieces start count total number offset pieces).length = pieces.length := by
  induction pieces generalizing number offset with
  | nil => rfl
  | cons piece rest ih => rw [ofPieces, List.length_cons, List.length_cons, ih]

@[simp] theorem length_ofPayload (start : UInt32) (size : Nat) (payload : Bytes) :
    (ofPayload start size payload).length = (payload.chunks size).length :=
  length_ofPieces ..

/-- The fragment with a number, and that there is none beyond the end of the payload. -/
theorem getElem?_ofPayload (start : UInt32) {size : Nat} (hsize : 0 < size) (payload : Bytes)
    (k : Nat) :
    (ofPayload start size payload)[k]? =
      if k * size < payload.length then some {
        start := start
        count := UInt32.ofNat (payload.chunks size).length
        number := UInt32.ofNat k
        total := UInt32.ofNat payload.length
        offset := UInt32.ofNat (k * size)
        payload := (payload.drop (k * size)).take size }
      else none := by
  rw [ofPayload, getElem?_ofPieces _ _ _ hsize, Bytes.getElem?_chunks hsize,
    Bytes.length_chunks hsize]
  split <;> simp

def toPiece (fragment : Fragment) : Piece :=
  ⟨fragment.number, fragment.offset.toNat, fragment.payload⟩

variable {start : UInt32} {size : Nat} {payload : Bytes} {fragment other : Fragment}

theorem exists_of_mem (hsize : 0 < size) (h : fragment ∈ ofPayload start size payload) :
    ∃ k, k * size < payload.length ∧ fragment = {
      start := start
      count := UInt32.ofNat (payload.chunks size).length
      number := UInt32.ofNat k
      total := UInt32.ofNat payload.length
      offset := UInt32.ofNat (k * size)
      payload := (payload.drop (k * size)).take size } := by
  obtain ⟨k, hget⟩ := List.mem_iff_getElem?.mp h
  rw [getElem?_ofPayload start hsize] at hget
  split at hget
  · rename_i hk
    exact ⟨k, hk, (Option.some.inj hget).symm⟩
  · cases hget

/-- A fragment of a packet is the one that its number says. -/
theorem getElem?_number (hsize : 0 < size) (hsmall : payload.length < 4294967296)
    (h : fragment ∈ ofPayload start size payload) :
    (ofPayload start size payload)[fragment.number.toNat]? = some fragment := by
  obtain ⟨k, hk, rfl⟩ := exists_of_mem hsize h
  have hle : k ≤ k * size := Nat.le_mul_of_pos_right k hsize
  have hnumber : (UInt32.ofNat k).toNat = k := by
    rw [UInt32.toNat_ofNat', Nat.mod_eq_of_lt (by omega)]
  rw [hnumber, getElem?_ofPayload start hsize, if_pos hk]

/-- All fragments of a packet agree on its first number, its size and their count. -/
theorem fields_of_mem (hsize : 0 < size) (hsmall : payload.length < 4294967296)
    (h : fragment ∈ ofPayload start size payload) :
    fragment.start = start ∧ fragment.total.toNat = payload.length ∧
      fragment.count = UInt32.ofNat (payload.chunks size).length := by
  obtain ⟨k, -, rfl⟩ := exists_of_mem hsize h
  refine ⟨rfl, ?_, rfl⟩
  rw [UInt32.toNat_ofNat']
  exact Nat.mod_eq_of_lt hsmall

theorem eq_of_number_eq (hsize : 0 < size) (hsmall : payload.length < 4294967296)
    (h : fragment ∈ ofPayload start size payload) (hother : other ∈ ofPayload start size payload)
    (hnumber : fragment.number = other.number) : fragment = other := by
  have h₁ := getElem?_number hsize hsmall h
  have h₂ := getElem?_number hsize hsmall hother
  rw [hnumber, h₂] at h₁
  exact (Option.some.inj h₁).symm

theorem nodup_numbers (hsize : 0 < size) (hsmall : payload.length < 4294967296) :
    ((ofPayload start size payload).map (·.number)).Nodup := by
  apply List.Nodup.of_map UInt32.toNat
  have hrange : ((ofPayload start size payload).map (·.number)).map UInt32.toNat =
      List.range (payload.chunks size).length := by
    apply List.ext_getElem?
    intro k
    rw [List.getElem?_map, List.getElem?_map, getElem?_ofPayload start hsize]
    split
    · rename_i hk
      have hle : k ≤ k * size := Nat.le_mul_of_pos_right k hsize
      have hget := Bytes.getElem?_chunks hsize payload k
      rw [if_pos hk] at hget
      have hlt := (List.getElem?_eq_some_iff.mp hget).1
      simp only [Option.map_some, UInt32.toNat_ofNat', List.getElem?_range hlt]
      rw [Nat.mod_eq_of_lt (by omega)]
    · rename_i hk
      have hge : (payload.chunks size).length ≤ k := by
        rw [← List.getElem?_eq_none_iff, Bytes.getElem?_chunks hsize, if_neg hk]
      rw [List.getElem?_eq_none (by rw [List.length_range]; exact hge)]
      rfl
  rw [hrange]
  exact List.nodup_range

/-- The bytes of a fragment are those that stand at its offset in the packet. -/
theorem getElem?_payload (hsize : 0 < size) (hsmall : payload.length < 4294967296)
    (h : fragment ∈ ofPayload start size payload) {i : Nat} (hi : i < fragment.payload.length) :
    fragment.payload[i]? = payload[fragment.offset.toNat + i]? := by
  obtain ⟨k, hk, rfl⟩ := exists_of_mem hsize h
  simp only [List.length_take] at hi
  have hoffset : (UInt32.ofNat (k * size)).toNat = k * size := by
    rw [UInt32.toNat_ofNat', Nat.mod_eq_of_lt (by omega)]
  rw [List.getElem?_take_of_lt (by omega), List.getElem?_drop, hoffset]

/-- A fragment lies inside its packet. -/
theorem offset_add_length_le (hsize : 0 < size) (hsmall : payload.length < 4294967296)
    (h : fragment ∈ ofPayload start size payload) :
    fragment.offset.toNat + fragment.payload.length ≤ payload.length := by
  obtain ⟨k, hk, rfl⟩ := exists_of_mem hsize h
  have hoffset : (UInt32.ofNat (k * size)).toNat = k * size := by
    rw [UInt32.toNat_ofNat', Nat.mod_eq_of_lt (by omega)]
  simp only [List.length_take, List.length_drop, hoffset]
  omega

/-- Every byte of a packet lies in one of its fragments. -/
theorem exists_covering (start : UInt32) (hsize : 0 < size) (hsmall : payload.length < 4294967296)
    {i : Nat} (hi : i < payload.length) :
    ∃ fragment ∈ ofPayload start size payload,
      fragment.offset.toNat ≤ i ∧ i < fragment.offset.toNat + fragment.payload.length := by
  have hdiv : i / size * size ≤ i := Nat.div_mul_le_self i size
  have hmod : i < i / size * size + size := Nat.lt_div_mul_add hsize
  have hget := getElem?_ofPayload start hsize payload (i / size)
  rw [if_pos (by omega)] at hget
  refine ⟨_, List.mem_of_getElem? hget, ?_, ?_⟩ <;>
    simp only [List.length_take, List.length_drop] <;>
    rw [UInt32.toNat_ofNat', Nat.mod_eq_of_lt (by omega)] <;> omega

end Fragment

/-! ## Reassembly -/

namespace Reassembly

/-- What was kept are distinct fragments of one packet, and the counters tell how many. -/
structure Collects (start : UInt32) (size : Nat) (payload : Bytes) (reassembly : Reassembly) :
    Prop where
  total : reassembly.total = payload.length
  count : reassembly.count = UInt32.ofNat (payload.chunks size).length
  remaining : reassembly.remaining.toNat + reassembly.pieces.length = (payload.chunks size).length
  distinct : (reassembly.pieces.map (·.number)).Nodup
  genuine : ∀ piece ∈ reassembly.pieces,
    ∃ fragment ∈ Fragment.ofPayload start size payload, piece = fragment.toPiece

variable {start : UInt32} {size : Nat} {payload : Bytes} {reassembly : Reassembly}

theorem holds_iff {number : UInt32} :
    reassembly.holds number = true ↔ number ∈ reassembly.pieces.map (·.number) := by
  simp [holds]

theorem pieces_subset_insert (reassembly : Reassembly) (number : UInt32) (offset : Nat)
    (bytes : Bytes) : reassembly.pieces ⊆ (reassembly.insert number offset bytes).2.pieces := by
  unfold Reassembly.insert
  split
  · exact List.Subset.refl _
  · exact List.subset_cons_self _ _

/-- A fragment has been kept after its arrival, then or earlier. -/
theorem Collects.mem_insert (h : Collects start size payload reassembly) (hsize : 0 < size)
    (hsmall : payload.length < 4294967296) {fragment : Fragment}
    (hfragment : fragment ∈ Fragment.ofPayload start size payload) :
    fragment.toPiece ∈
      (reassembly.insert fragment.number fragment.offset.toNat fragment.payload).2.pieces := by
  unfold Reassembly.insert
  split
  · rename_i hholds
    obtain ⟨piece, hpiece, hnumber⟩ := List.mem_map.mp (holds_iff.mp hholds)
    obtain ⟨other, hother, rfl⟩ := h.genuine piece hpiece
    rw [Fragment.eq_of_number_eq hsize hsmall hfragment hother hnumber.symm]
    exact hpiece
  · exact List.mem_cons_self

theorem Collects.empty (hsize : 0 < size) (hsmall : payload.length < 4294967296) :
    Collects start size payload
      (.empty payload.length (UInt32.ofNat (payload.chunks size).length)) where
  total := rfl
  count := rfl
  remaining := by
    have hlength := payload.length_chunks_le hsize
    simp only [Reassembly.empty, List.length_nil, UInt32.toNat_ofNat']
    omega
  distinct := List.nodup_nil
  genuine := by simp [Reassembly.empty]

theorem Collects.numbers_subset (h : Collects start size payload reassembly) :
    reassembly.pieces.map (·.number) ⊆ (Fragment.ofPayload start size payload).map (·.number) := by
  intro number hnumber
  obtain ⟨piece, hpiece, rfl⟩ := List.mem_map.mp hnumber
  obtain ⟨fragment, hfragment, rfl⟩ := h.genuine piece hpiece
  exact List.mem_map.mpr ⟨fragment, hfragment, rfl⟩

theorem Collects.insert (h : Collects start size payload reassembly) {fragment : Fragment}
    (hfragment : fragment ∈ Fragment.ofPayload start size payload) :
    Collects start size payload
      (reassembly.insert fragment.number fragment.offset.toNat fragment.payload).2 := by
  unfold Reassembly.insert
  split
  · exact h
  · rename_i hnew
    have hdistinct : (fragment.number :: reassembly.pieces.map (·.number)).Nodup :=
      List.nodup_cons.mpr ⟨fun hmem ↦ hnew (holds_iff.mpr hmem), h.distinct⟩
    -- One more distinct number fits, so at least one was missing.
    have hroom := (List.subperm_of_subset hdistinct (List.cons_subset.mpr
      ⟨List.mem_map.mpr ⟨fragment, hfragment, rfl⟩, h.numbers_subset⟩)).length_le
    simp only [List.length_cons, List.length_map, Fragment.length_ofPayload] at hroom
    have hremaining := h.remaining
    have hpositive : (1 : UInt32) ≤ reassembly.remaining := by
      rw [UInt32.le_iff_toNat_le, UInt32.toNat_one]
      omega
    refine ⟨h.total, h.count, ?_, hdistinct, ?_⟩
    · simp only [List.length_cons]
      rw [UInt32.toNat_sub_of_le _ _ hpositive, UInt32.toNat_one]
      omega
    · intro piece hpiece
      rcases List.mem_cons.mp hpiece with rfl | hpiece
      · exact ⟨fragment, hfragment, rfl⟩
      · exact h.genuine piece hpiece

/-- When none is missing, every fragment has been kept. -/
theorem Collects.mem_of_complete (h : Collects start size payload reassembly)
    (hcomplete : reassembly.remaining = 0) (hsize : 0 < size)
    (hsmall : payload.length < 4294967296) {fragment : Fragment}
    (hfragment : fragment ∈ Fragment.ofPayload start size payload) :
    fragment.toPiece ∈ reassembly.pieces := by
  have hlength := h.remaining
  rw [hcomplete, UInt32.toNat_zero, Nat.zero_add] at hlength
  have hperm := (List.subperm_of_subset h.distinct h.numbers_subset).perm_of_length_le
    (by simp [hlength])
  have hmem : fragment.number ∈ reassembly.pieces.map (·.number) :=
    hperm.mem_iff.mpr (List.mem_map.mpr ⟨fragment, hfragment, rfl⟩)
  obtain ⟨piece, hpiece, hnumber⟩ := List.mem_map.mp hmem
  obtain ⟨other, hother, rfl⟩ := h.genuine piece hpiece
  rw [Fragment.eq_of_number_eq hsize hsmall hfragment hother hnumber.symm]
  exact hpiece

/-- When every fragment has been kept, none is missing. -/
theorem Collects.remaining_eq_zero (h : Collects start size payload reassembly)
    (hsize : 0 < size) (hsmall : payload.length < 4294967296)
    (hall : ∀ fragment ∈ Fragment.ofPayload start size payload,
      fragment.toPiece ∈ reassembly.pieces) : reassembly.remaining = 0 := by
  have hsubset : (Fragment.ofPayload start size payload).map (·.number) ⊆
      reassembly.pieces.map (·.number) := by
    intro number hnumber
    obtain ⟨fragment, hfragment, rfl⟩ := List.mem_map.mp hnumber
    exact List.mem_map.mpr ⟨fragment.toPiece, hall fragment hfragment, rfl⟩
  have hlength := (List.subperm_of_subset (Fragment.nodup_numbers hsize hsmall) hsubset).length_le
  rw [List.length_map, List.length_map, Fragment.length_ofPayload] at hlength
  have hremaining := h.remaining
  apply UInt32.toNat_inj.mp
  rw [UInt32.toNat_zero]
  omega

/-- A packet that is not empty has at least one fragment. -/
theorem Collects.max_count_eq (h : Collects start size payload reassembly) (hsize : 0 < size)
    (hsmall : payload.length < 4294967296) (hpayload : payload ≠ []) :
    max reassembly.count 1 = reassembly.count := by
  have hpos : 0 < (payload.chunks size).length := by
    rw [Bytes.chunks_eq hsize hpayload]
    exact Nat.succ_pos _
  have hle := payload.length_chunks_le hsize
  have hone : 1 ≤ reassembly.count := by
    rw [UInt32.le_iff_toNat_le, h.count, UInt32.toNat_ofNat', UInt32.toNat_one,
      Nat.mod_eq_of_lt (by omega)]
    exact hpos
  exact Word.max_eq_left hone

/-- Writing pieces of one packet, in any order, yields at each place the packet's byte if a
piece covers it and what stood there before otherwise. -/
theorem getElem?_foldr_overwrite {pieces : List Piece} (blank : Bytes)
    (hlength : blank.length = payload.length)
    (hinside : ∀ piece ∈ pieces, piece.offset + piece.payload.length ≤ payload.length)
    (hbytes : ∀ piece ∈ pieces, ∀ i < piece.payload.length,
      piece.payload[i]? = payload[piece.offset + i]?) :
    (pieces.foldr (fun piece whole ↦ whole.overwrite piece.offset piece.payload) blank).length =
        payload.length ∧
      ∀ i, (∃ piece ∈ pieces, piece.offset ≤ i ∧ i < piece.offset + piece.payload.length) →
        (pieces.foldr (fun piece whole ↦ whole.overwrite piece.offset piece.payload) blank)[i]? =
          payload[i]? := by
  induction pieces with
  | nil => exact ⟨hlength, by simp⟩
  | cons head rest ih =>
    obtain ⟨hrest, hcovered⟩ := ih
      (fun piece hpiece ↦ hinside piece (List.mem_cons_of_mem _ hpiece))
      (fun piece hpiece ↦ hbytes piece (List.mem_cons_of_mem _ hpiece))
    have hhead := hinside head List.mem_cons_self
    rw [List.foldr_cons]
    refine ⟨(Bytes.length_overwrite (by omega)).trans hrest, fun i hi ↦ ?_⟩
    rw [Bytes.getElem?_overwrite (by omega)]
    split
    · rename_i hin
      rw [hbytes head List.mem_cons_self _ (by omega), Nat.add_sub_cancel' hin.1]
    · rename_i hout
      apply hcovered
      obtain ⟨piece, hpiece, hcover⟩ := hi
      rcases List.mem_cons.mp hpiece with rfl | hpiece
      · exact absurd hcover hout
      · exact ⟨piece, hpiece, hcover⟩

/-- A packet whose fragments have all arrived is whole. -/
theorem Collects.bytes_eq (h : Collects start size payload reassembly)
    (hcomplete : reassembly.remaining = 0) (hsize : 0 < size)
    (hsmall : payload.length < 4294967296) : reassembly.bytes = payload := by
  have hinside : ∀ piece ∈ reassembly.pieces,
      piece.offset + piece.payload.length ≤ payload.length := by
    intro piece hpiece
    obtain ⟨fragment, hfragment, rfl⟩ := h.genuine piece hpiece
    exact Fragment.offset_add_length_le hsize hsmall hfragment
  have hbytes : ∀ piece ∈ reassembly.pieces, ∀ i < piece.payload.length,
      piece.payload[i]? = payload[piece.offset + i]? := by
    intro piece hpiece i hi
    obtain ⟨fragment, hfragment, rfl⟩ := h.genuine piece hpiece
    exact Fragment.getElem?_payload hsize hsmall hfragment hi
  obtain ⟨hlength, hcovered⟩ := getElem?_foldr_overwrite
    (List.replicate reassembly.total 0) (by simp [h.total]) hinside hbytes
  apply List.ext_getElem?
  intro i
  by_cases hi : i < payload.length
  · obtain ⟨fragment, hfragment, hcover⟩ := Fragment.exists_covering start hsize hsmall hi
    exact hcovered i ⟨fragment.toPiece, h.mem_of_complete hcomplete hsize hsmall hfragment, hcover⟩
  · rw [List.getElem?_eq_none (by simp only [bytes]; omega), List.getElem?_eq_none (by omega)]

end Reassembly

end ReliableDatagram
