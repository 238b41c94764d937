import ReliableDatagram.Proofs.Channel.Operations
import ReliableDatagram.Proofs.Channel.Retention

/-!
# When the next packet is delivered

Runs of fragments can overlap other packets, so a delivery can leave entries behind in the
reliable buffer that have become stale. They are dropped on the way to the next packet, but only
if they are complete: a stale run that misses a fragment ends the search, and then the next
packet is not delivered although it has arrived.
-/

namespace ReliableDatagram

namespace Channel

inductive Drains : Channel → List Delivered → Channel → Prop where
  | done {channel after : Channel} (hreceive : channel.receive = (none, after)) :
      Drains channel [] after
  | more {channel middle after : Channel} {taken : Delivered} {later : List Delivered}
      (hnext : channel.next? = some taken)
      (hreceive : channel.receive = (some taken.packet, middle))
      (hlater : Drains middle later after) : Drains channel (taken :: later) after

/-- Delivering comes to an end. -/
theorem exists_drains (channel : Channel) : ∃ delivered after, channel.Drains delivered after := by
  induction hpending : channel.pending using Nat.strong_induction_on generalizing channel with
  | h pending ih =>
    have hfst := channel.receive_fst
    cases hnext : channel.next? with
    | none =>
      rw [hnext] at hfst
      exact ⟨[], channel.receive.2, .done (Prod.ext hfst rfl)⟩
    | some taken =>
      rw [hnext] at hfst
      have hreceive : channel.receive = (some taken.packet, channel.receive.2) :=
        Prod.ext hfst rfl
      have hless := pending_receive_lt hreceive
      rw [hpending] at hless
      obtain ⟨later, after, hlater⟩ := ih _ hless channel.receive.2 rfl
      exact ⟨taken :: later, after, .more hnext hreceive hlater⟩

variable {channel after : Channel} {entry : Arrival} {delivered : List Delivered}

/-- The buffer holds no stale run that misses a fragment. -/
def Unblocked (channel : Channel) : Prop :=
  ∀ other ∈ channel.reliable, other.sequence ≤ channel.incomingReliable → other.remaining = 0

/-- If a packet is taken, it is the next one, and what stands before it is complete. -/
theorem Ascends.of_takeNext_some (h : channel.Ascends) (hentry : entry ∈ channel.reliable)
    (hnext : entry.sequence.toNat = channel.incomingReliable.toNat + 1) {arrival : Arrival}
    {rest : List Arrival} (htake : Arrival.takeNext channel.incomingReliable channel.reliable =
      (some arrival, rest)) : arrival = entry ∧ channel.Unblocked := by
  obtain ⟨stale, hbuffer, hstale, htaken, -⟩ := Arrival.takeNext_eq htake
  obtain ⟨-, hnumber⟩ := htaken arrival rfl
  have harrival : arrival ∈ channel.reliable := by
    rw [hbuffer]
    simp
  refine ⟨h.ascending.eq_of_key_eq harrival hentry (UInt32.toNat_inj.mp (by omega))
    (h.numbered arrival harrival), fun other hother hpast ↦ ?_⟩
  rw [hbuffer] at hother
  rcases List.mem_append.mp hother with hother | hother
  · exact (hstale other hother).1
  · -- What comes after the packet that is taken is not stale.
    rw [UInt32.le_iff_toNat_le] at hpast
    rcases List.mem_cons.mp hother with rfl | hother
    · omega
    · have hlt := h.lt_of_mem hbuffer hother
      rw [UInt32.lt_iff_toNat_lt] at hlt
      omega

/-- If nothing is taken although the next packet has arrived, a stale entry misses a fragment. -/
theorem Ascends.of_takeNext_none (h : channel.Ascends) (hentry : entry ∈ channel.reliable)
    (hcomplete : entry.remaining = 0)
    (hnext : entry.sequence.toNat = channel.incomingReliable.toNat + 1) {rest : List Arrival}
    (htake : Arrival.takeNext channel.incomingReliable channel.reliable = (none, rest)) :
    ¬ channel.Unblocked := by
  obtain ⟨stale, hbuffer, hstale, -, hwaits⟩ := Arrival.takeNext_eq htake
  rw [Option.toList_none, List.nil_append] at hbuffer
  intro hunblocked
  have hrest : entry ∈ rest := by
    rw [hbuffer] at hentry
    refine (List.mem_append.mp hentry).resolve_left fun hpast ↦ ?_
    have hbehind := (hstale entry hpast).2
    rw [UInt32.le_iff_toNat_le] at hbehind
    omega
  cases rest with
  | nil => cases hrest
  | cons head rest =>
    have hle : head.sequence.toNat ≤ entry.sequence.toNat := by
      rcases List.mem_cons.mp hrest with rfl | hlater
      · exact Nat.le_refl _
      · exact UInt32.le_iff_toNat_le.mp (UInt32.le_of_lt (h.lt_of_mem hbuffer hlater))
    -- The entry at the head waits, and the next packet is at the head or behind it.
    rcases hwaits rfl head rfl with hmissing | hgap
    · have hdone : head.remaining = 0 := by
        rcases List.mem_cons.mp hrest with rfl | hlater
        · exact hcomplete
        · have hlt := h.lt_of_mem hbuffer hlater
          rw [UInt32.lt_iff_toNat_lt] at hlt
          apply hunblocked head (by rw [hbuffer]; simp)
          rw [UInt32.le_iff_toNat_le]
          omega
      rw [hdone] at hmissing
      exact UInt32.lt_irrefl 0 hmissing
    · omega

/-- If the next reliable packet has arrived, it is taken unless a stale entry misses
a fragment, and then nothing is taken. -/
theorem Ascends.takeNext_cases (h : channel.Ascends) (hentry : entry ∈ channel.reliable)
    (hcomplete : entry.remaining = 0)
    (hnext : entry.sequence.toNat = channel.incomingReliable.toNat + 1) :
    ((Arrival.takeNext channel.incomingReliable channel.reliable).1 = some entry ∧
        channel.Unblocked) ∨
      ((Arrival.takeNext channel.incomingReliable channel.reliable).1 = none ∧
        ¬ channel.Unblocked) := by
  cases htake : Arrival.takeNext channel.incomingReliable channel.reliable with
  | mk taken rest =>
    cases taken with
    | some arrival =>
      obtain ⟨rfl, hunblocked⟩ := h.of_takeNext_some hentry hnext htake
      exact .inl ⟨rfl, hunblocked⟩
    | none => exact .inr ⟨rfl, h.of_takeNext_none hentry hcomplete hnext htake⟩

/-- Unreliable packets that are delivered first change nothing about the next reliable one. -/
theorem Drains.takes_next (h : channel.Drains delivered after) (hascends : channel.Ascends)
    (hentry : entry ∈ channel.reliable) (hcomplete : entry.remaining = 0)
    (hnext : entry.sequence.toNat = channel.incomingReliable.toNat + 1) :
    (channel.Unblocked → .reliable entry ∈ delivered) ∧
      (¬ channel.Unblocked → ∀ arrival, .reliable arrival ∉ delivered) := by
  induction h with
  | @done channel after hreceive =>
    have hnone : channel.next? = none := by
      have hfst := channel.receive_fst
      rw [hreceive] at hfst
      exact Option.map_eq_none_iff.mp hfst.symm
    have hwithholds : channel.Withholds := by
      by_contra hfree
      obtain ⟨head, rest, hbuffer, hfree⟩ := exists_of_not_withholds hfree
      rw [next?_of_free hbuffer hfree] at hnone
      cases hnone
    rw [next?_of_withholds hwithholds, Option.map_eq_none_iff] at hnone
    rcases hascends.takeNext_cases hentry hcomplete hnext with ⟨hsome, -⟩ | ⟨-, hblocked⟩
    · rw [hnone] at hsome
      cases hsome
    · exact ⟨fun hunblocked ↦ absurd hunblocked hblocked, by simp⟩
  | @more channel middle after taken later htaken hreceive hlater ih =>
    by_cases hwithholds : channel.Withholds
    · rw [next?_of_withholds hwithholds] at htaken
      rcases hascends.takeNext_cases hentry hcomplete hnext with ⟨hsome, hunblocked⟩ | ⟨hnone, -⟩
      · rw [hsome] at htaken
        cases htaken
        exact ⟨fun _ ↦ List.mem_cons_self, fun hblocked ↦ absurd hunblocked hblocked⟩
      · rw [hnone] at htaken
        cases htaken
    · obtain ⟨head, rest, hbuffer, hfree⟩ := exists_of_not_withholds hwithholds
      rw [next?_of_free hbuffer hfree] at htaken
      rw [receive_of_free hbuffer hfree] at hreceive
      obtain rfl := (Prod.mk.inj hreceive).2
      obtain ⟨hdelivers, hstalls⟩ := ih ⟨hascends.ascending, hascends.numbered⟩ hentry hnext
      refine ⟨fun hunblocked ↦ List.mem_cons_of_mem _ (hdelivers hunblocked),
        fun hblocked arrival hmem ↦ ?_⟩
      rcases List.mem_cons.mp hmem with rfl | hmem
      · split at htaken <;> cases htaken
      · exact hstalls hblocked arrival hmem

/-- A complete packet that is the next in order is delivered before there is nothing to deliver,
unless the buffer holds a stale run that misses a fragment. In that case no reliable packet is
delivered at all. -/
theorem delivers_next_unless_blocked {actions : List Action} {past : List Delivered}
    (hrun : run actions = (past, channel)) (hentry : entry ∈ channel.reliable)
    (hcomplete : entry.remaining = 0)
    (hnext : entry.sequence.toNat = channel.incomingReliable.toNat + 1) :
    ∃ delivered after, channel.Drains delivered after ∧
      ((∀ other ∈ channel.reliable, other.sequence ≤ channel.incomingReliable →
          other.remaining = 0) → .reliable entry ∈ delivered) ∧
      ((∃ other ∈ channel.reliable, other.sequence ≤ channel.incomingReliable ∧
          0 < other.remaining) → ∀ arrival, .reliable arrival ∉ delivered) := by
  obtain ⟨delivered, after, hdrains⟩ := channel.exists_drains
  have hascends : channel.Ascends := by
    have h := run_ascends actions
    rw [hrun] at h
    exact h
  obtain ⟨hdelivers, hstalls⟩ := hdrains.takes_next hascends hentry hcomplete hnext
  refine ⟨delivered, after, hdrains, hdelivers, fun ⟨other, hother, hpast, hmissing⟩ ↦ ?_⟩
  apply hstalls
  intro hunblocked
  rw [hunblocked other hother hpast] at hmissing
  exact UInt32.lt_irrefl 0 hmissing

/-- A run that takes up the numbers 1 and 2 is delivered, one that begins with 2 misses
a fragment, and then the packet with the number 3 comes. -/
def overlap : List Action :=
  [.reliable ⟨1, 0, .fragments ⟨2, 2, 0, [⟨1, 1, [2]⟩, ⟨0, 0, [1]⟩]⟩⟩,
    .reliable ⟨2, 0, .fragments ⟨2, 2, 1, [⟨0, 0, [3]⟩]⟩⟩,
    .receive,
    .reliable ⟨3, 0, .packet ⟨[3], .reliable⟩⟩]

/-- The packet with the number 3 is the next in order and complete, and it is not delivered. -/
theorem delivers_next_unless_blocked_overlap : ∃ past channel delivered after,
    run overlap = (past, channel) ∧
      ⟨3, 0, .packet ⟨[3], .reliable⟩⟩ ∈ channel.reliable ∧ channel.incomingReliable = 2 ∧
      channel.Drains delivered after ∧
      .reliable ⟨3, 0, .packet ⟨[3], .reliable⟩⟩ ∉ delivered := by
  have hrun : run overlap =
      ([.reliable ⟨1, 0, .fragments ⟨2, 2, 0, [⟨1, 1, [2]⟩, ⟨0, 0, [1]⟩]⟩⟩], {
        incomingReliable := 2
        reliable := [⟨2, 0, .fragments ⟨2, 2, 1, [⟨0, 0, [3]⟩]⟩⟩,
          ⟨3, 0, .packet ⟨[3], .reliable⟩⟩] }) := by decide
  obtain ⟨delivered, after, hdrains, -, hstalls⟩ := delivers_next_unless_blocked hrun
    (List.mem_cons_of_mem _ List.mem_cons_self) rfl rfl
  exact ⟨_, _, delivered, after, hrun, List.mem_cons_of_mem _ List.mem_cons_self, rfl, hdrains,
    hstalls ⟨_, List.mem_cons_self, by decide, by decide⟩ _⟩

end Channel

end ReliableDatagram
