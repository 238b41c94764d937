import ReliableDatagram.Proofs.Channel.Submissions
import ReliableDatagram.Channel

/-!
# Progress through a log

The two counters of a channel tell which packets of a log were delivered. The last reliable
number delivered is always the number of reliable commands before some position of the log,
so a packet is delivered with all its fragments or not at all. A delivery moves on to a later
position, and no reliable packet is passed over.
-/

namespace ReliableDatagram

namespace Submission

/-! ## What arrives of a packet -/

/-- The reliable arrival stands for this packet, when so many numbers were spent before it. -/
inductive Carries (submission : Submission) (before : Nat) : Arrival → Prop where
  | whole (hwhole : submission.isFragmented = false)
      (hreliable : submission.packet.isReliable = true) :
      Carries submission before
        ⟨UInt32.ofNat (before + 1), 0, .packet ⟨submission.packet.payload, .reliable⟩⟩
  | run {reassembly : Reassembly} (hrun : submission.isFragmented = true)
      (hcollects : reassembly.Collects (UInt32.ofNat (before + 1)) submission.fragmentLength
        submission.packet.payload) :
      Carries submission before ⟨UInt32.ofNat (before + 1), 0, .fragments reassembly⟩

/-- How an unreliable packet arrives, when so many numbers of each kind were spent before it. -/
def unreliableArrival (submission : Submission) (before unreliable : Nat) : Arrival :=
  ⟨UInt32.ofNat before, UInt32.ofNat (unreliable + 1),
    .packet ⟨submission.packet.payload, .plain⟩⟩

variable {log : List Submission} {submission : Submission} {i : Nat} {arrival : Arrival}

theorem Carries.isReliable {before : Nat} (h : submission.Carries before arrival) :
    submission.isReliable = true := by
  cases h with
  | whole _ hreliable => rw [Submission.isReliable, hreliable, Bool.or_true]
  | run hrun => rw [Submission.isReliable, hrun, Bool.true_or]

theorem Carries.sequence_eq {before : Nat} (h : submission.Carries before arrival) :
    arrival.sequence = UInt32.ofNat (before + 1) := by
  cases h <;> rfl

namespace Numbered

variable (hlog : Numbered log) (hget : log[i]? = some submission)
include hlog hget

theorem before_add_length_lt :
    reliableBefore log i + submission.commands.length < 4294967296 := by
  rw [← reliableBefore_succ hget]
  exact hlog.reliableBefore_lt (i + 1)

/-- The first number of a packet comes right after those spent before it. -/
theorem sequence_toNat (h : submission.Carries (reliableBefore log i) arrival) :
    arrival.sequence.toNat = reliableBefore log i + 1 := by
  have hlt := hlog.before_add_length_lt hget
  have hpos := hlog.length_commands_pos hget h.isReliable
  rw [h.sequence_eq, UInt32.toNat_ofNat']
  exact Nat.mod_eq_of_lt (by omega)

/-- A packet takes up as many numbers as it has commands. -/
theorem span_toNat (h : submission.Carries (reliableBefore log i) arrival) :
    arrival.span.toNat = submission.commands.length := by
  have hlt := hlog.before_add_length_lt hget
  have hpos := hlog.length_commands_pos hget h.isReliable
  cases h with
  | whole hwhole hreliable => exact (hlog.length_commands_of_whole hget hwhole hreliable).symm
  | run hrun hcollects =>
    have hlength := hlog.length_commands_of_isFragmented hget hrun
    have hcount : (UInt32.ofNat submission.commands.length).toNat =
        submission.commands.length := by
      rw [UInt32.toNat_ofNat']
      exact Nat.mod_eq_of_lt (by omega)
    have hone : (1 : UInt32) ≤ UInt32.ofNat submission.commands.length := by
      rw [UInt32.le_iff_toNat_le, UInt32.toNat_one, hcount]
      exact hpos
    simp only [Arrival.span]
    rw [hcollects.count, ← hlength, Word.max_eq_left hone, hcount]

/-- The last number of a packet that is delivered is the last one spent on it. -/
theorem last_toNat (h : submission.Carries (reliableBefore log i) arrival) :
    (arrival.sequence + (arrival.span - 1)).toNat = reliableBefore log (i + 1) := by
  have hlt := hlog.before_add_length_lt hget
  have hpos := hlog.length_commands_pos hget h.isReliable
  have hspan := hlog.span_toNat hget h
  have hone : (1 : UInt32) ≤ arrival.span := by
    rw [UInt32.le_iff_toNat_le, UInt32.toNat_one, hspan]
    exact hpos
  rw [UInt32.toNat_add, UInt32.toNat_sub_of_le _ _ hone, hlog.sequence_toNat hget h, hspan,
    UInt32.toNat_one, reliableBefore_succ hget]
  have hsum : reliableBefore log i + 1 + (submission.commands.length - 1) =
      reliableBefore log i + submission.commands.length := by omega
  rw [hsum]
  exact Nat.mod_eq_of_lt hlt

/-- A packet of which nothing is missing arrived as it was submitted. -/
theorem toPacket_eq (h : submission.Carries (reliableBefore log i) arrival)
    (hcomplete : arrival.remaining = 0) : arrival.toPacket = submission.delivered := by
  have hmem := List.mem_of_getElem? hget
  rw [delivered, h.isReliable, if_pos rfl]
  cases h with
  | whole => rfl
  | run hrun hcollects =>
    have hbytes := hcollects.bytes_eq hcomplete (hlog.positive _ hmem) (hlog.small _ hmem)
    simp only [Arrival.toPacket, hbytes]

theorem unreliableSequence_toNat (hunreliable : submission.isUnreliable = true) :
    (UInt32.ofNat (unreliableBefore log i + 1)).toNat = unreliableBefore log i + 1 := by
  have hlt := hlog.unreliableBefore_lt (i + 1)
  rw [unreliableBefore_succ hget, if_pos hunreliable] at hlt
  rw [UInt32.toNat_ofNat']
  exact Nat.mod_eq_of_lt hlt

end Numbered

/-- Two reliable packets with the same numbers before them are the same packet. -/
theorem Numbered.eq_of_before_eq (hlog : Numbered log) {other : Submission} {j : Nat}
    (hget : log[i]? = some submission) (hkind : submission.isReliable = true)
    (hother : log[j]? = some other) (hreliable : other.isReliable = true)
    (hbefore : reliableBefore log i = reliableBefore log j) : i = j := by
  have hpos := hlog.length_commands_pos hget hkind
  have hpos' := hlog.length_commands_pos hother hreliable
  have hsucc := reliableBefore_succ hget
  have hsucc' := reliableBefore_succ hother
  have hij : i < j + 1 := (reliableBefore_mono log).reflect_lt (by omega)
  have hji : j < i + 1 := (reliableBefore_mono log).reflect_lt (by omega)
  omega

theorem Numbered.before_toNat (hlog : Numbered log) (i : Nat) :
    (UInt32.ofNat (reliableBefore log i)).toNat = reliableBefore log i := by
  rw [UInt32.toNat_ofNat']
  exact Nat.mod_eq_of_lt (hlog.reliableBefore_lt i)

/-! ## Reliable packets -/

def reliableAt (log : List Submission) (i : Nat) : Option Packet :=
  log[i]?.bind fun submission ↦
    if submission.isReliable then some submission.delivered else none

def isReliableAt (log : List Submission) (i : Nat) : Bool := (reliableAt log i).isSome

theorem isReliableAt_iff (log : List Submission) (i : Nat) : isReliableAt log i = true ↔
    ∃ submission, log[i]? = some submission ∧ submission.isReliable = true := by
  cases hget : log[i]? with
  | none => simp [isReliableAt, reliableAt, hget]
  | some submission =>
    cases hkind : submission.isReliable <;> simp [isReliableAt, reliableAt, hget, hkind]

theorem filterMap_reliableAt (log : List Submission) {k : Nat} (hk : k ≤ log.length) :
    (List.range k).filterMap (reliableAt log) =
      ((log.take k).filter (·.isReliable)).map (·.delivered) := by
  induction k with
  | zero => rfl
  | succ k ih =>
    have hget := List.getElem?_eq_getElem hk
    rw [List.range_succ, List.filterMap_append, ih (Nat.le_of_succ_le hk), List.take_add_one,
      List.filter_append, List.map_append, hget]
    congr 1
    cases hkind : log[k].isReliable <;> simp [reliableAt, hget, hkind]

/-! ## What was delivered -/

/-- The packets at these positions were delivered, in this order, when the last numbers
delivered are these. -/
structure Progress (log : List Submission) (positions : List Nat) (reliable unreliable : Nat) :
    Prop where
  increasing : positions.Pairwise (· < ·)
  boundary : ∃ k ≤ log.length, reliable = reliableBefore log k
  passed : ∀ i ∈ positions, ∃ submission, log[i]? = some submission ∧
    submission.isUnsequenced = false ∧ reliableBefore log i ≤ reliable ∧
    (submission.isUnreliable = true → unreliableBefore log (i + 1) ≤ unreliable)
  complete : ∀ (i : Nat) (submission : Submission), log[i]? = some submission →
    submission.isReliable = true → (i ∈ positions ↔ reliableBefore log (i + 1) ≤ reliable)

namespace Progress

variable {positions : List Nat} {reliable unreliable : Nat}

theorem start : Progress [] [] 0 0 where
  increasing := List.Pairwise.nil
  boundary := ⟨0, Nat.le_refl _, rfl⟩
  passed := by simp
  complete := by simp

/-- A packet that is submitted later has not been delivered. -/
theorem append {more : List Submission} (h : Progress log positions reliable unreliable)
    (hlog : Numbered (log ++ more)) : Progress (log ++ more) positions reliable unreliable := by
  obtain ⟨k, hk, hreliable⟩ := h.boundary
  refine ⟨h.increasing, ⟨k, ?_, ?_⟩, ?_, ?_⟩
  · rw [List.length_append]
    omega
  · rw [reliableBefore_append _ hk, hreliable]
  · intro i hi
    obtain ⟨submission, hget, hsequenced, hle, hunreliable⟩ := h.passed i hi
    have hlt := (List.getElem?_eq_some_iff.mp hget).1
    refine ⟨submission, getElem?_append_of_some hget, hsequenced, ?_, ?_⟩
    · rw [reliableBefore_append _ (by omega)]
      exact hle
    · intro hkind
      rw [unreliableBefore_append _ (by omega)]
      exact hunreliable hkind
  · intro i submission hget hkind
    by_cases hi : i < log.length
    · rw [List.getElem?_append_left hi] at hget
      rw [reliableBefore_append _ (by omega)]
      exact h.complete i submission hget hkind
    · have hpos := hlog.length_commands_pos hget hkind
      have hmono := reliableBefore_mono (log ++ more) (show k ≤ i by omega)
      rw [reliableBefore_append _ hk] at hmono
      rw [reliableBefore_succ hget]
      constructor
      · intro hmem
        obtain ⟨other, hother, -⟩ := h.passed i hmem
        exact absurd (List.getElem?_eq_some_iff.mp hother).1 hi
      · intro hle
        omega

/-- The position after a delivered one: nothing at or behind it was delivered. -/
theorem lt_of_mem (h : Progress log positions (reliableBefore log i) unreliable)
    (hget : log[i]? = some submission) (hlog : Numbered log)
    (hnext : submission.isReliable = true ∨
      submission.isUnreliable = true ∧ unreliable ≤ unreliableBefore log i) :
    ∀ j ∈ positions, j < i := by
  intro j hj
  obtain ⟨other, hother, hsequenced, hle, hunreliable⟩ := h.passed j hj
  cases hkind : other.isReliable with
  | true =>
    -- A reliable packet spends a number, so its position shows in the counter.
    have hdelivered := (h.complete j other hother hkind).mp hj
    have hpos := hlog.length_commands_pos hother hkind
    rw [reliableBefore_succ hother] at hdelivered
    exact (reliableBefore_mono log).reflect_lt (by omega)
  | false =>
    have hunrel : other.isUnreliable = true := by
      rw [isUnsequenced, hkind] at hsequenced
      rw [isUnreliable, hkind]
      simpa using hsequenced
    rcases hnext with hreliable | ⟨hnext, hcount⟩
    · have hpos := hlog.length_commands_pos hget hreliable
      have hlt : j < i + 1 := by
        apply (reliableBefore_mono log).reflect_lt
        rw [reliableBefore_succ hget]
        omega
      have hne : j ≠ i := by
        rintro rfl
        rw [hget, Option.some.injEq] at hother
        rw [hother, hkind] at hreliable
        cases hreliable
      omega
    · have hpast := hunreliable hunrel
      rw [unreliableBefore_succ hother, if_pos hunrel] at hpast
      exact (unreliableBefore_mono log).reflect_lt (by omega)

theorem increasing_append (h : Progress log positions reliable unreliable)
    (hlt : ∀ j ∈ positions, j < i) : (positions ++ [i]).Pairwise (· < ·) := by
  refine List.pairwise_append.mpr ⟨h.increasing, List.pairwise_singleton _ _, ?_⟩
  intro j hj other hother
  rw [List.mem_singleton.mp hother]
  exact hlt j hj

/-- Delivers the reliable packet that is next. -/
theorem deliverReliable (h : Progress log positions (reliableBefore log i) unreliable)
    (hlog : Numbered log) (hget : log[i]? = some submission)
    (hkind : submission.isReliable = true) :
    Progress log (positions ++ [i]) (reliableBefore log (i + 1)) unreliable := by
  have hlt := h.lt_of_mem hget hlog (.inl hkind)
  have hmono : reliableBefore log i ≤ reliableBefore log (i + 1) :=
    reliableBefore_mono _ (Nat.le_succ i)
  refine ⟨h.increasing_append hlt, ⟨i + 1, (List.getElem?_eq_some_iff.mp hget).1, rfl⟩, ?_, ?_⟩
  · intro j hj
    rcases List.mem_append.mp hj with hj | hj
    · obtain ⟨other, hother, hsequenced, hle, hunreliable⟩ := h.passed j hj
      exact ⟨other, hother, hsequenced, Nat.le_trans hle hmono, hunreliable⟩
    · rw [List.mem_singleton.mp hj]
      refine ⟨submission, hget, ?_, hmono, ?_⟩
      · rw [isUnsequenced, hkind]
        rfl
      · intro hunreliable
        cases (isUnreliable_of_isReliable hkind).symm.trans hunreliable
  · intro j other hother hreliable
    have hpos := hlog.length_commands_pos hother hreliable
    have hiff := h.complete j other hother hreliable
    have hsucc := reliableBefore_succ hother
    rw [List.mem_append, List.mem_singleton, hiff]
    constructor
    · rintro (hle | rfl)
      · exact Nat.le_trans hle hmono
      · exact Nat.le_refl _
    · intro hle
      have hji : j < i + 1 := (reliableBefore_mono log).reflect_lt (by omega)
      by_cases heq : j = i
      · exact .inr heq
      · exact .inl (reliableBefore_mono _ (by omega))

/-- Delivers an unreliable packet for which all reliable packets before it were delivered. -/
theorem deliverUnreliable (h : Progress log positions (reliableBefore log i) unreliable)
    (hlog : Numbered log) (hget : log[i]? = some submission)
    (hkind : submission.isUnreliable = true) (hcount : unreliable ≤ unreliableBefore log i) :
    Progress log (positions ++ [i]) (reliableBefore log i) (unreliableBefore log i + 1) := by
  have hlt := h.lt_of_mem hget hlog (.inr ⟨hkind, hcount⟩)
  refine ⟨h.increasing_append hlt, h.boundary, ?_, ?_⟩
  · intro j hj
    rcases List.mem_append.mp hj with hj | hj
    · obtain ⟨other, hother, hsequenced, hle, hunreliable⟩ := h.passed j hj
      refine ⟨other, hother, hsequenced, hle, fun hother ↦ ?_⟩
      exact Nat.le_trans (hunreliable hother) (Nat.le_succ_of_le hcount)
    · rw [List.mem_singleton.mp hj]
      refine ⟨submission, hget, isUnsequenced_of_isUnreliable hkind, Nat.le_refl _, fun _ ↦ ?_⟩
      have hsucc := unreliableBefore_succ hget
      rw [if_pos hkind] at hsucc
      exact Nat.le_of_eq hsucc
  · intro j other hother hreliable
    rw [List.mem_append, List.mem_singleton, ← h.complete j other hother hreliable, or_iff_left]
    rintro rfl
    rw [hget, Option.some.injEq] at hother
    rw [hother, isUnreliable, hreliable] at hkind
    cases hkind

/-- Nothing is delivered before a reliable packet that was submitted earlier. -/
theorem mem_of_lt (h : Progress log positions reliable unreliable) {j : Nat}
    (hi : i ∈ positions) (hj : j < i) (hget : log[j]? = some submission)
    (hkind : submission.isReliable = true) : j ∈ positions := by
  obtain ⟨other, hother, -, hle, -⟩ := h.passed i hi
  rw [h.complete j submission hget hkind]
  exact Nat.le_trans (reliableBefore_mono _ hj) hle

/-- The reliable packets that were delivered are those in front of the position that the
counter stands for. -/
theorem filterMap_positions (h : Progress log positions reliable unreliable) (hlog : Numbered log)
    {k : Nat} (hk : k ≤ log.length) (hreliable : reliable = reliableBefore log k) :
    positions.filterMap (reliableAt log) =
      ((log.take k).filter (·.isReliable)).map (·.delivered) := by
  have hmem (i : Nat) : i ∈ positions.filter (isReliableAt log) ↔
      i ∈ (List.range k).filter (isReliableAt log) := by
    rw [List.mem_filter, List.mem_filter, List.mem_range]
    apply and_congr_left
    intro hi
    obtain ⟨submission, hget, hkind⟩ := (isReliableAt_iff log i).mp hi
    rw [h.complete i submission hget hkind, hreliable]
    have hpos := hlog.length_commands_pos hget hkind
    have hsucc := reliableBefore_succ hget
    constructor
    · intro hle
      exact (reliableBefore_mono log).reflect_lt (by omega)
    · intro hlt
      exact reliableBefore_mono log hlt
  have hsorted : positions.filter (isReliableAt log) =
      (List.range k).filter (isReliableAt log) := by
    have hpositions := h.increasing.filter (isReliableAt log)
    have hrange := (List.pairwise_lt_range (n := k)).filter (isReliableAt log)
    have hperm := (List.perm_ext_iff_of_nodup (hpositions.imp Nat.ne_of_lt)
      (hrange.imp Nat.ne_of_lt)).mpr hmem
    apply hperm.eq_of_pairwise _ hpositions hrange
    intro a b _ _ hab hba
    omega
  have hfilter (l : List Nat) :
      l.filterMap (reliableAt log) = (l.filter (isReliableAt log)).filterMap (reliableAt log) := by
    rw [List.filterMap_filter]
    apply List.filterMap_congr
    intro i _
    cases hi : reliableAt log i <;> simp [isReliableAt, hi]
  rw [hfilter, hsorted, ← hfilter, filterMap_reliableAt log hk]

/-- The reliable packets that were delivered are the first ones of the log. -/
theorem reliable_prefix (h : Progress log positions reliable unreliable) (hlog : Numbered log) :
    positions.filterMap (reliableAt log) <+:
      (log.filter (·.isReliable)).map (·.delivered) := by
  obtain ⟨k, hk, hreliable⟩ := h.boundary
  rw [h.filterMap_positions hlog hk hreliable]
  exact ((List.take_prefix k log).filter _).map _

/-- The reliable packets are those that were delivered, and then those that are missing, each at a
position of its own. -/
theorem exists_missing (h : Progress log positions reliable unreliable) (hlog : Numbered log) :
    ∃ returned missing : List Submission,
      log.filter (·.isReliable) = returned ++ missing ∧
      positions.filterMap (reliableAt log) = returned.map (·.delivered) ∧
      ∀ submission ∈ missing,
        ∃ i, log[i]? = some submission ∧ submission.isReliable = true ∧ i ∉ positions := by
  obtain ⟨k, hk, hreliable⟩ := h.boundary
  have hsplit : log.filter (·.isReliable) =
      (log.take k).filter (·.isReliable) ++ (log.drop k).filter (·.isReliable) := by
    rw [← List.filter_append, List.take_append_drop]
  refine ⟨_, _, hsplit, h.filterMap_positions hlog hk hreliable, ?_⟩
  intro submission hmem
  obtain ⟨hdropped, hkind⟩ := List.mem_filter.mp hmem
  obtain ⟨n, hn⟩ := List.mem_iff_getElem?.mp hdropped
  rw [List.getElem?_drop] at hn
  refine ⟨k + n, hn, hkind, fun hpast ↦ ?_⟩
  have hle := (h.complete _ submission hn hkind).mp hpast
  have hmono := reliableBefore_mono log (Nat.le_add_right k n)
  have hpos := hlog.length_commands_pos hn hkind
  rw [reliableBefore_succ hn] at hle
  omega

end Progress

end Submission

end ReliableDatagram
