import ReliableDatagram.Channel
import Mathlib.Data.List.TakeWhile
import Mathlib.Tactic.Common

/-!
# Reorder buffers

Both buffers of a channel are kept in ascending order of a sequence number. A number 0
stands for none: unsequenced arrivals have it, stand in front and are not ordered among
themselves. An insertion searches from the newest end, so it splits the buffer into what
stays in front of the arrival and what stays behind it; order and content follow from
the split.
-/

namespace ReliableDatagram

namespace Arrival

variable {key : Arrival → UInt32} {arrival : Arrival}

/-- The keys ascend, except that any number of zeros may stand in front. -/
def Ascending (key : Arrival → UInt32) (buffer : List Arrival) : Prop :=
  buffer.Pairwise fun a b ↦ key a = 0 ∨ key a < key b

/-! ## Insertion -/

theorem place_eq_some {buffer placed : List Arrival} (h : place key arrival buffer = some placed) :
    ∃ newer older, buffer = newer ++ older ∧ placed = newer ++ arrival :: older ∧
      (∀ entry ∈ newer, key arrival < key entry) ∧
      ∀ entry ∈ older.head?, key entry < key arrival := by
  induction buffer generalizing placed with
  | nil =>
    cases h
    exact ⟨[], [], rfl, rfl, by simp, by simp⟩
  | cons entry older ih =>
    rw [place] at h
    split at h
    · cases h
    · rename_i hne
      split at h
      · rename_i hlt
        cases h
        exact ⟨[], entry :: older, rfl, rfl, by simp, by simpa using hlt⟩
      · rename_i hle
        obtain ⟨tail, htail, rfl⟩ := Option.map_eq_some_iff.mp h
        obtain ⟨newer, rest, rfl, rfl, hnewer, hrest⟩ := ih htail
        refine ⟨entry :: newer, rest, rfl, rfl, ?_, hrest⟩
        intro other hother
        rcases List.mem_cons.mp hother with rfl | hother
        · exact UInt32.lt_of_le_of_ne (UInt32.not_lt.mp hle) (Ne.symm hne)
        · exact hnewer other hother

theorem place_eq_none {buffer : List Arrival} (h : place key arrival buffer = none) :
    ∃ entry ∈ buffer, key entry = key arrival := by
  induction buffer with
  | nil => cases h
  | cons entry older ih =>
    rw [place] at h
    split at h
    · rename_i heq
      exact ⟨entry, List.mem_cons_self, heq⟩
    · split at h
      · cases h
      · obtain ⟨other, hother, heq⟩ := ih (Option.map_eq_none_iff.mp h)
        exact ⟨other, List.mem_cons_of_mem _ hother, heq⟩

/-- An arrival that is kept goes behind all smaller keys and in front of all greater ones. -/
theorem insertInto_eq_some {buffer placed : List Arrival}
    (h : insertInto key arrival buffer = some placed) :
    ∃ older newer, buffer = older ++ newer ∧ placed = older ++ arrival :: newer ∧
      (∀ entry ∈ newer, key arrival < key entry) ∧
      ∀ entry ∈ older.getLast?, key entry < key arrival := by
  obtain ⟨reversed, hreversed, rfl⟩ := Option.map_eq_some_iff.mp h
  obtain ⟨newer, older, hbuffer, rfl, hnewer, holder⟩ := place_eq_some hreversed
  refine ⟨older.reverse, newer.reverse, ?_, by simp, by simpa using hnewer, by simpa using holder⟩
  rw [← List.reverse_append, ← hbuffer, List.reverse_reverse]

/-- An arrival is refused only if its key is taken. -/
theorem insertInto_eq_none {buffer : List Arrival} (h : insertInto key arrival buffer = none) :
    ∃ entry ∈ buffer, key entry = key arrival := by
  obtain ⟨entry, hentry, heq⟩ := place_eq_none (Option.map_eq_none_iff.mp h)
  exact ⟨entry, List.mem_reverse.mp hentry, heq⟩

theorem mem_of_insertInto {buffer placed : List Arrival} {entry : Arrival}
    (h : insertInto key arrival buffer = some placed) :
    entry ∈ placed ↔ entry = arrival ∨ entry ∈ buffer := by
  obtain ⟨older, newer, rfl, rfl, -, -⟩ := insertInto_eq_some h
  simp only [List.mem_append, List.mem_cons]
  tauto

theorem Ascending.insertInto {buffer placed : List Arrival} (hbuffer : Ascending key buffer)
    (h : Arrival.insertInto key arrival buffer = some placed) : Ascending key placed := by
  obtain ⟨older, newer, rfl, rfl, hnewer, holder⟩ := insertInto_eq_some h
  obtain ⟨hold, hnew, hcross⟩ := List.pairwise_append.mp hbuffer
  refine List.pairwise_append.mpr ⟨hold, List.pairwise_cons.mpr
    ⟨fun entry hentry ↦ .inr (hnewer entry hentry), hnew⟩, fun entry hentry other hother ↦ ?_⟩
  rcases List.mem_cons.mp hother with rfl | hother
  · -- Everything in front of the arrival is zero or at most the last key there.
    obtain rfl | ⟨front, last, rfl⟩ := List.eq_nil_or_concat older
    · cases hentry
    · rw [List.concat_eq_append] at hold holder hentry
      have hlast : key last < key other := holder last (by simp)
      rcases List.mem_append.mp hentry with hentry | hentry
      · have hpair := (List.pairwise_append.mp hold).2.2 entry hentry last List.mem_cons_self
        exact hpair.imp_right fun hlt ↦ UInt32.lt_trans hlt hlast
      · rw [List.mem_singleton.mp hentry]
        exact .inr hlast
  · exact hcross entry hentry other hother

/-- An arrival without a number goes in front of all that have one. -/
theorem Ascending.insertUnsequenced {buffer : List Arrival} (hbuffer : Ascending key buffer)
    (harrival : key arrival = 0) :
    Ascending key (buffer.takeWhile (key · == 0) ++ arrival :: buffer.dropWhile (key · == 0)) := by
  have hsplit := hbuffer
  rw [← List.takeWhile_append_dropWhile (p := (key · == 0)) (l := buffer)] at hsplit
  obtain ⟨hfront, hback, hcross⟩ := List.pairwise_append.mp hsplit
  refine List.pairwise_append.mpr ⟨hfront, List.pairwise_cons.mpr
    ⟨fun _ _ ↦ .inl harrival, hback⟩, fun entry hentry other _ ↦ .inl ?_⟩
  simpa using List.mem_takeWhile_imp hentry

/-- An entry may change in everything but its key. -/
theorem Ascending.replace {front rest : List Arrival} {entry : Arrival}
    (h : Ascending key (front ++ entry :: rest)) (hkey : key arrival = key entry) :
    Ascending key (front ++ arrival :: rest) := by
  obtain ⟨hfront, hback, hcross⟩ := List.pairwise_append.mp h
  obtain ⟨hentry, hrest⟩ := List.pairwise_cons.mp hback
  refine List.pairwise_append.mpr ⟨hfront, List.pairwise_cons.mpr ⟨?_, hrest⟩, ?_⟩
  · rw [hkey]
    exact hentry
  · intro other hother newer hnewer
    rcases List.mem_cons.mp hnewer with rfl | hnewer
    · rw [hkey]
      exact hcross other hother entry List.mem_cons_self
    · exact hcross other hother newer (List.mem_cons_of_mem _ hnewer)

/-! ## Taking out -/

/-- Behind an entry with a number, all numbers are greater. -/
theorem Ascending.lt_of_mem_tail {head entry : Arrival} {rest : List Arrival}
    (h : Ascending key (head :: rest)) (hhead : key head ≠ 0) (hentry : entry ∈ rest) :
    key head < key entry :=
  ((List.pairwise_cons.mp h).1 entry hentry).resolve_left hhead

theorem Ascending.tail {head : Arrival} {rest : List Arrival}
    (h : Ascending key (head :: rest)) : Ascending key rest :=
  (List.pairwise_cons.mp h).2

/-- Two entries of one key other than 0 are the same entry. -/
theorem Ascending.eq_of_key_eq {buffer : List Arrival} {a b : Arrival}
    (h : Ascending key buffer) (ha : a ∈ buffer) (hb : b ∈ buffer) (hkey : key a = key b)
    (hne : key a ≠ 0) : a = b := by
  induction buffer with
  | nil => cases ha
  | cons head rest ih =>
    rcases List.mem_cons.mp ha with rfl | ha' <;> rcases List.mem_cons.mp hb with rfl | hb'
    · rfl
    · exact absurd hkey (UInt32.ne_of_lt (h.lt_of_mem_tail hne hb'))
    · exact absurd hkey.symm (UInt32.ne_of_lt (h.lt_of_mem_tail (hkey ▸ hne) ha'))
    · exact ih h.tail ha' hb'

/-- If nothing in front is stale, the foremost entry is taken when it is complete and the
next in order, and otherwise nothing changes. -/
theorem takeNext_cons {delivered : UInt32} {head : Arrival} (rest : List Arrival)
    (hahead : delivered < head.sequence) :
    takeNext delivered (head :: rest) =
      if 0 < head.remaining ∨ delivered.toNat + 1 < head.sequence.toNat then (none, head :: rest)
      else (some head, rest) := by
  rw [takeNext, if_pos hahead]

/-- Taking an entry shortens the buffer. -/
theorem length_takeNext_lt {delivered : UInt32} {buffer rest : List Arrival} {arrival : Arrival}
    (h : takeNext delivered buffer = (some arrival, rest)) : rest.length < buffer.length := by
  induction buffer with
  | nil => cases h
  | cons head older ih =>
    rw [takeNext] at h
    split at h
    · cases h
    · split at h
      · cases h
        exact Nat.lt_succ_self _
      · exact Nat.lt_succ_of_lt (ih h)

/-- What is left when nothing can be taken stays as it is. -/
theorem takeNext_eq_none_again {delivered : UInt32} {buffer rest : List Arrival}
    (h : takeNext delivered buffer = (none, rest)) : takeNext delivered rest = (none, rest) := by
  induction buffer with
  | nil =>
    cases h
    rfl
  | cons head older ih =>
    rw [takeNext] at h
    split at h
    · rename_i hwaits
      cases h
      rw [takeNext, if_pos hwaits]
    · split at h
      · cases h
      · exact ih h

end Arrival

end ReliableDatagram
