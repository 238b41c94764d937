import ReliableDatagram.Proofs.Channel.Buffer
import ReliableDatagram.Proofs.Channel.Progress

/-!
# Delivery in order

A channel follows a log when everything in its buffers stands for packets of the log and
its two counters tell exactly which packets were delivered. Arrivals keep this up, and so
does a delivery, which moves on to a later position.
-/

namespace ReliableDatagram

open Submission

namespace Submission

variable {log : List Submission}

/-- The arrival is unsequenced or stands for an unreliable packet of the log. -/
inductive Loose (log : List Submission) : Arrival → Prop where
  | unsequenced {entry : Arrival} (hnumber : entry.unreliableSequence = 0)
      (hflags : entry.toPacket.flags = .unsequenced) : Loose log entry
  | sequenced {i : Nat} {submission : Submission} (hget : log[i]? = some submission)
      (hkind : submission.isUnreliable = true) :
      Loose log (submission.unreliableArrival (reliableBefore log i) (unreliableBefore log i))

/-- The arrival stands for a reliable packet of the log. -/
inductive Firm (log : List Submission) : Arrival → Prop where
  | intro {i : Nat} {submission : Submission} {entry : Arrival}
      (hget : log[i]? = some submission)
      (hcarries : submission.Carries (reliableBefore log i) entry) : Firm log entry

theorem Loose.append {more : List Submission} {entry : Arrival} (h : Loose log entry) :
    Loose (log ++ more) entry := by
  cases h with
  | unsequenced hnumber hflags => exact .unsequenced hnumber hflags
  | @sequenced i submission hget hkind =>
    have hlt := (List.getElem?_eq_some_iff.mp hget).1
    rw [← reliableBefore_append more (by omega : i ≤ log.length),
      ← unreliableBefore_append more (by omega : i ≤ log.length)]
    exact .sequenced (getElem?_append_of_some hget) hkind

theorem Firm.append {more : List Submission} {entry : Arrival} (h : Firm log entry) :
    Firm (log ++ more) entry := by
  cases h with
  | @intro i submission _ hget hcarries =>
    have hlt := (List.getElem?_eq_some_iff.mp hget).1
    rw [← reliableBefore_append more (by omega : i ≤ log.length)] at hcarries
    exact .intro (getElem?_append_of_some hget) hcarries

end Submission

namespace Channel

/-! ## Runs of fragments -/

theorem replaceRun_append {start : UInt32} {reassembly : Reassembly} {front rest : List Arrival}
    {entry : Arrival} (hfront : ∀ other ∈ front, other.sequence ≠ start)
    (hentry : entry.sequence = start) :
    replaceRun start reassembly (front ++ entry :: rest) =
      front ++ { entry with content := .fragments reassembly } :: rest := by
  induction front with
  | nil => rw [List.nil_append, replaceRun, if_pos hentry, List.nil_append]
  | cons head front ih =>
    rw [List.cons_append, replaceRun, if_neg (hfront head List.mem_cons_self),
      ih fun other hother ↦ hfront other (List.mem_cons_of_mem _ hother), List.cons_append]

/-- A run that was found stands somewhere in the buffer, and what it becomes stands in its
place. -/
theorem findRun_eq_found {channel : Channel} {start : UInt32} {reassembly : Reassembly}
    (h : channel.findRun start = .found reassembly) :
    ∃ front entry rest, channel.reliable = front ++ entry :: rest ∧ entry.sequence = start ∧
      entry.content = .fragments reassembly ∧ ∀ updated,
        (channel.setRun start updated).reliable =
          front ++ { entry with content := .fragments updated } :: rest := by
  unfold findRun at h
  split at h
  · cases h
  · rename_i entry hfind
    split at h
    · cases h
    · rename_i hcontent
      cases h
      obtain ⟨hsequence, front, rest, hsplit, hfront⟩ := List.find?_eq_some_iff_append.mp hfind
      have hstart : entry.sequence = start := by simpa using hsequence
      refine ⟨front, entry, rest, hsplit, hstart, hcontent, fun updated ↦ ?_⟩
      simp only [setRun]
      rw [hsplit]
      apply replaceRun_append _ hstart
      intro other hother
      simpa using hfront other hother

theorem findRun_eq_absent {channel : Channel} {start : UInt32}
    (h : channel.findRun start = .absent) : ∀ entry ∈ channel.reliable, entry.sequence ≠ start := by
  unfold findRun at h
  split at h
  · rename_i hnone
    intro entry hentry
    simpa using List.find?_eq_none.mp hnone entry hentry
  · split at h <;> cases h

theorem findRun_eq_taken {channel : Channel} {start : UInt32}
    (h : channel.findRun start = .taken) :
    ∃ entry ∈ channel.reliable, entry.sequence = start ∧
      ∃ packet, entry.content = .packet packet := by
  unfold findRun at h
  split at h
  · cases h
  · rename_i entry hfind
    split at h
    · rename_i packet hcontent
      exact ⟨entry, List.mem_of_find?_eq_some hfind, by simpa using List.find?_some hfind,
        packet, hcontent⟩
    · cases h

/-! ## Channels that follow a log -/

/-- The channel has delivered the packets at these positions of the log, and its buffers
stand for packets that are still to be delivered. -/
structure Follows (log : List Submission) (positions : List Nat) (channel : Channel) : Prop where
  progress : Progress log positions channel.incomingReliable.toNat
    channel.incomingUnreliable.toNat
  reliable_ascending : Arrival.Ascending Arrival.sequence channel.reliable
  reliable_firm : ∀ entry ∈ channel.reliable, Firm log entry
  reliable_ahead : ∀ entry ∈ channel.reliable, channel.incomingReliable < entry.sequence
  unreliable_ascending : Arrival.Ascending Arrival.unreliableSequence channel.unreliable
  unreliable_loose : ∀ entry ∈ channel.unreliable, Loose log entry
  unreliable_ahead : ∀ entry ∈ channel.unreliable, 0 < entry.unreliableSequence →
    channel.incomingUnreliable < entry.unreliableSequence ∧
      channel.incomingReliable ≤ entry.sequence

inductive Delivery (log : List Submission) (positions : List Nat) (channel : Channel) :
    Option Packet × Channel → Prop where
  | nothing : Delivery log positions channel (none, channel)
  | unsequenced {packet : Packet} {after : Channel} (hflags : packet.flags = .unsequenced)
      (hafter : Follows log positions after) : Delivery log positions channel (some packet, after)
  | next {i : Nat} {submission : Submission} {after : Channel}
      (hget : log[i]? = some submission) (hkind : submission.isUnsequenced = false)
      (hafter : Follows log (positions ++ [i]) after) :
      Delivery log positions channel (some submission.delivered, after)

namespace Follows

variable {log more : List Submission} {positions : List Nat} {channel : Channel}
  {submission : Submission} {i : Nat}

theorem start : Follows [] [] {} where
  progress := Progress.start
  reliable_ascending := List.Pairwise.nil
  reliable_firm := by simp
  reliable_ahead := by simp
  unreliable_ascending := List.Pairwise.nil
  unreliable_loose := by simp
  unreliable_ahead := by simp

theorem append (h : Follows log positions channel) (hlog : Numbered (log ++ more)) :
    Follows (log ++ more) positions channel where
  progress := h.progress.append hlog
  reliable_ascending := h.reliable_ascending
  reliable_firm entry hentry := (h.reliable_firm entry hentry).append
  reliable_ahead := h.reliable_ahead
  unreliable_ascending := h.unreliable_ascending
  unreliable_loose entry hentry := (h.unreliable_loose entry hentry).append
  unreliable_ahead := h.unreliable_ahead

/-! ## Arrivals -/

theorem queueReliable {arrival : Arrival} (h : Follows log positions channel)
    (hfirm : Firm log arrival) : Follows log positions (channel.queueReliable arrival).2 := by
  unfold Channel.queueReliable
  split
  · exact h
  · rename_i hahead
    split
    · exact h
    · rename_i buffer hbuffer
      refine { h with
        reliable_ascending := h.reliable_ascending.insertInto hbuffer
        reliable_firm := ?_
        reliable_ahead := ?_ }
      · intro entry hentry
        rcases (Arrival.mem_of_insertInto hbuffer).mp hentry with rfl | hentry
        · exact hfirm
        · exact h.reliable_firm entry hentry
      · intro entry hentry
        rcases (Arrival.mem_of_insertInto hbuffer).mp hentry with rfl | hentry
        · exact UInt32.not_le.mp hahead
        · exact h.reliable_ahead entry hentry

theorem queueUnreliable {arrival : Arrival} (h : Follows log positions channel)
    (hloose : Loose log arrival) : Follows log positions (channel.queueUnreliable arrival).2 := by
  unfold Channel.queueUnreliable
  split
  · exact h
  · rename_i hahead
    rw [not_or, UInt32.not_lt, UInt32.not_le] at hahead
    split
    · exact h
    · rename_i buffer hbuffer
      refine { h with
        unreliable_ascending := h.unreliable_ascending.insertInto hbuffer
        unreliable_loose := ?_
        unreliable_ahead := ?_ }
      · intro entry hentry
        rcases (Arrival.mem_of_insertInto hbuffer).mp hentry with rfl | hentry
        · exact hloose
        · exact h.unreliable_loose entry hentry
      · intro entry hentry hpos
        rcases (Arrival.mem_of_insertInto hbuffer).mp hentry with rfl | hentry
        · exact ⟨hahead.2, hahead.1⟩
        · exact h.unreliable_ahead entry hentry hpos

theorem queueUnsequenced {arrival : Arrival} (h : Follows log positions channel)
    (hnumber : arrival.unreliableSequence = 0)
    (hflags : arrival.toPacket.flags = .unsequenced) :
    Follows log positions (channel.queueUnsequenced arrival) := by
  have hmem (entry : Arrival) (hentry : entry ∈ (channel.queueUnsequenced arrival).unreliable) :
      entry = arrival ∨ entry ∈ channel.unreliable := by
    rcases List.mem_append.mp hentry with hentry | hentry
    · exact .inr ((List.takeWhile_prefix _).subset hentry)
    · rcases List.mem_cons.mp hentry with rfl | hentry
      · exact .inl rfl
      · exact .inr ((List.dropWhile_suffix _).subset hentry)
  refine { h with
    unreliable_ascending := h.unreliable_ascending.insertUnsequenced hnumber
    unreliable_loose := ?_
    unreliable_ahead := ?_ }
  · intro entry hentry
    rcases hmem entry hentry with rfl | hentry
    · exact .unsequenced hnumber hflags
    · exact h.unreliable_loose entry hentry
  · intro entry hentry hpos
    rcases hmem entry hentry with rfl | hentry
    · rw [hnumber] at hpos
      exact absurd hpos (UInt32.lt_irrefl 0)
    · exact h.unreliable_ahead entry hentry hpos

/-- An entry that begins where a reliable packet begins is that packet. -/
theorem eq_of_sequence_eq (h : Follows log positions channel) (hlog : Numbered log)
    (hget : log[i]? = some submission) (hkind : submission.isReliable = true) {entry : Arrival}
    (hentry : entry ∈ channel.reliable)
    (hsequence : entry.sequence = UInt32.ofNat (reliableBefore log i + 1)) :
    submission.Carries (reliableBefore log i) entry := by
  obtain ⟨hother, hcarries⟩ := h.reliable_firm entry hentry
  rename_i j other
  have hbefore : reliableBefore log i = reliableBefore log j := by
    have hpos := hlog.length_commands_pos hget hkind
    have hlt := hlog.before_add_length_lt hget
    have hnumber := hlog.sequence_toNat hother hcarries
    rw [hsequence, UInt32.toNat_ofNat', Nat.mod_eq_of_lt (by omega)] at hnumber
    omega
  have hij := hlog.eq_of_before_eq hget hkind hother hcarries.isReliable hbefore
  subst hij
  rw [hget, Option.some.injEq] at hother
  rw [hother]
  exact hcarries

/-- An entry that begins where a fragmented packet begins is that packet, coming in
fragments. -/
theorem collects_of_sequence_eq (h : Follows log positions channel) (hlog : Numbered log)
    (hget : log[i]? = some submission) (hrun : submission.isFragmented = true) {entry : Arrival}
    (hentry : entry ∈ channel.reliable)
    (hsequence : entry.sequence = UInt32.ofNat (reliableBefore log i + 1)) :
    ∃ reassembly, entry = ⟨UInt32.ofNat (reliableBefore log i + 1), 0, .fragments reassembly⟩ ∧
      reassembly.Collects (UInt32.ofNat (reliableBefore log i + 1)) submission.fragmentLength
        submission.packet.payload := by
  have hkind : submission.isReliable = true := by
    rw [Submission.isReliable, hrun, Bool.true_or]
  cases h.eq_of_sequence_eq hlog hget hkind hentry hsequence with
  | whole hwhole =>
    rw [hwhole] at hrun
    cases hrun
  | run _ hcollects => exact ⟨_, rfl, hcollects⟩

theorem addFragment {fragment : Fragment} (h : Follows log positions channel)
    (hlog : Numbered log) (hget : log[i]? = some submission)
    (hrun : submission.isFragmented = true)
    (hfragment : fragment ∈ Fragment.ofPayload (UInt32.ofNat (reliableBefore log i + 1))
      submission.fragmentLength submission.packet.payload) :
    Follows log positions (channel.addFragment fragment) := by
  have hmem := List.mem_of_getElem? hget
  have hsize := hlog.positive _ hmem
  have hsmall := hlog.small _ hmem
  obtain ⟨hstart, htotal, hcount⟩ := Fragment.fields_of_mem hsize hsmall hfragment
  unfold Channel.addFragment
  split
  · exact h
  · split
    · exact h
    · rename_i reassembly hfound
      split
      · obtain ⟨front, entry, rest, hsplit, hsequence, hcontent, hset⟩ := findRun_eq_found hfound
        have hentry : entry ∈ channel.reliable := by
          rw [hsplit]
          exact List.mem_append_right _ List.mem_cons_self
        obtain ⟨other, rfl, hcollects⟩ := h.collects_of_sequence_eq hlog hget hrun hentry
          (hsequence.trans hstart)
        cases hcontent
        have hinsert := hcollects.insert hfragment
        have hascending := h.reliable_ascending
        have hahead := h.reliable_ahead
        have hfirm := h.reliable_firm
        rw [hsplit] at hascending hahead hfirm
        refine { h with reliable_ascending := ?_, reliable_firm := ?_, reliable_ahead := ?_ }
        · rw [hset]
          exact hascending.replace rfl
        · rw [hset]
          intro other hother
          rcases List.mem_append.mp hother with hother | hother
          · exact hfirm other (List.mem_append_left _ hother)
          · rcases List.mem_cons.mp hother with rfl | hother
            · exact .intro hget (.run hrun hinsert)
            · exact hfirm other (List.mem_append_right _ (List.mem_cons_of_mem _ hother))
        · rw [hset]
          intro other hother
          rcases List.mem_append.mp hother with hother | hother
          · exact hahead other (List.mem_append_left _ hother)
          · rcases List.mem_cons.mp hother with rfl | hother
            · have hstay := h.reliable_ahead _ hentry
              exact hstay
            · exact hahead other (List.mem_append_right _ (List.mem_cons_of_mem _ hother))
      · exact h
    · apply h.queueReliable
      rw [hstart, htotal, hcount]
      exact .intro hget (.run hrun ((Reassembly.Collects.empty hsize hsmall).insert hfragment))

/-! ## Deliveries -/

theorem receiveReliable_eq (h : Follows log positions channel) :
    channel.receiveReliable = (none, channel) ∨ ∃ head rest,
      channel.reliable = head :: rest ∧ head.remaining = 0 ∧
        head.sequence.toNat = channel.incomingReliable.toNat + 1 ∧
        channel.receiveReliable = (some head.toPacket, { channel with
          reliable := rest
          incomingReliable := head.sequence + (head.span - 1) }) := by
  unfold Channel.receiveReliable
  cases hbuffer : channel.reliable with
  | nil =>
    left
    simp only [Arrival.takeNext]
    rw [← hbuffer]
  | cons head rest =>
    have hahead := h.reliable_ahead head (hbuffer ▸ List.mem_cons_self)
    have htake := Arrival.takeNext_cons rest hahead
    by_cases hwait : 0 < head.remaining ∨
        channel.incomingReliable.toNat + 1 < head.sequence.toNat
    · left
      rw [if_pos hwait] at htake
      rw [htake]
      change (none, { channel with reliable := head :: rest }) = _
      rw [← hbuffer]
    · right
      rw [if_neg hwait] at htake
      rw [not_or, UInt32.not_lt] at hwait
      rw [UInt32.lt_iff_toNat_lt] at hahead
      have hcomplete : head.remaining = 0 := UInt32.le_antisymm hwait.1 UInt32.zero_le
      refine ⟨head, rest, rfl, hcomplete, by omega, ?_⟩
      rw [htake]

/-- If the foremost unreliable arrival has to wait, all of them have to. -/
theorem waiting (h : Follows log positions channel) (hlog : Numbered log) {head : Arrival}
    {rest : List Arrival} (hbuffer : channel.unreliable = head :: rest)
    (hheld : channel.holdsBack head = true) : ∀ entry ∈ channel.unreliable,
      0 < entry.unreliableSequence ∧ channel.incomingReliable < entry.sequence := by
  have hhead : 0 < head.unreliableSequence ∧ channel.incomingReliable < head.sequence := by
    simpa [holdsBack] using hheld
  have hne : head.unreliableSequence ≠ 0 := (UInt32.ne_of_lt hhead.1).symm
  intro entry hentry
  rw [hbuffer] at hentry
  rcases List.mem_cons.mp hentry with rfl | hrest
  · exact hhead
  have hascending := h.unreliable_ascending
  have hloose := h.unreliable_loose
  rw [hbuffer] at hascending hloose
  have hlt := hascending.lt_of_mem_tail hne hrest
  refine ⟨UInt32.lt_trans hhead.1 hlt, ?_⟩
  cases hloose head List.mem_cons_self with
  | unsequenced hnumber => exact absurd hnumber hne
  | @sequenced i submission hget hkind =>
    cases hloose entry hentry with
    | unsequenced hnumber =>
      rw [hnumber] at hlt
      exact absurd hlt (UInt32.not_lt.mpr UInt32.zero_le)
    | @sequenced j other hother hunreliable =>
      simp only [unreliableArrival, UInt32.lt_iff_toNat_lt,
        hlog.unreliableSequence_toNat hget hkind,
        hlog.unreliableSequence_toNat hother hunreliable] at hlt
      have hmono := reliableBefore_mono log
        (Nat.le_of_lt ((unreliableBefore_mono log).reflect_lt (Nat.lt_of_succ_lt_succ hlt)))
      have hahead := hhead.2
      simp only [unreliableArrival, UInt32.lt_iff_toNat_lt, hlog.before_toNat] at hahead ⊢
      omega

/-- The next reliable packet is delivered once no unreliable one has to go first. -/
theorem receiveReliable (h : Follows log positions channel) (hlog : Numbered log)
    (hwaiting : ∀ entry ∈ channel.unreliable,
      0 < entry.unreliableSequence ∧ channel.incomingReliable < entry.sequence) :
    Delivery log positions channel channel.receiveReliable := by
  rcases h.receiveReliable_eq with hnone | ⟨head, rest, hbuffer, hcomplete, hnumber, hsome⟩
  · rw [hnone]
    exact .nothing
  rw [hsome]
  have hahead := h.reliable_ahead
  have hfirm := h.reliable_firm
  have hascending := h.reliable_ascending
  have hprogress := h.progress
  rw [hbuffer] at hahead hfirm hascending
  cases hfirm head List.mem_cons_self with
  | @intro i submission _ hget hcarries =>
    have hfirst := hlog.sequence_toNat hget hcarries
    have hlast := hlog.last_toNat hget hcarries
    have hcounter : channel.incomingReliable.toNat = reliableBefore log i := by omega
    rw [hcounter] at hprogress
    have hkind : submission.isUnsequenced = false := by
      rw [isUnsequenced, hcarries.isReliable]
      rfl
    rw [hlog.toPacket_eq hget hcarries hcomplete]
    refine .next hget hkind {
      progress := ?_
      reliable_ascending := hascending.tail
      reliable_firm := fun entry hentry ↦ hfirm entry (List.mem_cons_of_mem _ hentry)
      reliable_ahead := ?_
      unreliable_ascending := h.unreliable_ascending
      unreliable_loose := h.unreliable_loose
      unreliable_ahead := ?_ }
    · simp only [hlast]
      exact hprogress.deliverReliable hlog hget hcarries.isReliable
    · intro entry hentry
      have hne : head.sequence ≠ 0 := (UInt32.ne_of_lt
        (UInt32.lt_of_le_of_lt UInt32.zero_le (hahead head List.mem_cons_self))).symm
      have hlt := hascending.lt_of_mem_tail hne hentry
      cases hfirm entry (List.mem_cons_of_mem _ hentry) with
      | @intro j other _ hother hcarried =>
        -- The number of a later packet lies beyond all numbers of this one.
        have hnext := hlog.sequence_toNat hother hcarried
        rw [UInt32.lt_iff_toNat_lt] at hlt
        have hij : i < j := (reliableBefore_mono log).reflect_lt (by omega)
        have hmono : reliableBefore log (i + 1) ≤ reliableBefore log j := reliableBefore_mono _ hij
        rw [UInt32.lt_iff_toNat_lt]
        simp only [hlast]
        omega
    · intro entry hentry hpos
      refine ⟨(h.unreliable_ahead entry hentry hpos).1, ?_⟩
      cases h.unreliable_loose entry hentry with
      | unsequenced hzero =>
        rw [hzero] at hpos
        exact absurd hpos (UInt32.lt_irrefl 0)
      | @sequenced j other hother hunreliable =>
        have hlater := (hwaiting _ hentry).2
        simp only [unreliableArrival, UInt32.lt_iff_toNat_lt, UInt32.le_iff_toNat_le,
          hlog.before_toNat, hcounter] at hlater ⊢
        simp only [hlast]
        exact reliableBefore_mono _ ((reliableBefore_mono _).reflect_lt hlater)

/-- The foremost unreliable arrival is delivered unless it has to wait. -/
theorem receiveUnreliable (h : Follows log positions channel) (hlog : Numbered log)
    {head : Arrival} {rest : List Arrival} (hbuffer : channel.unreliable = head :: rest)
    (hfree : ¬ channel.holdsBack head = true) :
    Delivery log positions channel (some head.toPacket, { channel with
      unreliable := rest
      incomingUnreliable :=
        if 0 < head.unreliableSequence then head.unreliableSequence
        else channel.incomingUnreliable }) := by
  have hloose := h.unreliable_loose
  have hahead := h.unreliable_ahead
  have hascending := h.unreliable_ascending
  have hprogress := h.progress
  rw [hbuffer] at hloose hahead hascending
  cases hloose head List.mem_cons_self with
  | unsequenced hnumber hflags =>
    have hzero : ¬ 0 < head.unreliableSequence := by
      rw [hnumber]
      exact UInt32.lt_irrefl 0
    rw [if_neg hzero]
    exact .unsequenced hflags { h with
      unreliable_ascending := hascending.tail
      unreliable_loose := fun entry hentry ↦ hloose entry (List.mem_cons_of_mem _ hentry)
      unreliable_ahead := fun entry hentry ↦ hahead entry (List.mem_cons_of_mem _ hentry) }
  | @sequenced i submission hget hkind =>
    have hnumber := hlog.unreliableSequence_toNat hget hkind
    have hpos : 0 < (submission.unreliableArrival (reliableBefore log i)
        (unreliableBefore log i)).unreliableSequence := by
      rw [UInt32.lt_iff_toNat_lt]
      simp only [unreliableArrival, hnumber]
      exact Nat.succ_pos _
    obtain ⟨hunreliable, hreliable⟩ := hahead _ List.mem_cons_self hpos
    -- It waits for nothing and is not late, so all reliable packets before it were delivered.
    have hready : ¬ channel.incomingReliable < UInt32.ofNat (reliableBefore log i) := by
      intro hwait
      apply hfree
      rw [holdsBack, decide_eq_true hpos, Bool.true_and]
      exact decide_eq_true hwait
    simp only [unreliableArrival, UInt32.lt_iff_toNat_lt, UInt32.le_iff_toNat_le,
      hlog.before_toNat, hnumber] at hready hreliable hunreliable
    have hcounter : channel.incomingReliable.toNat = reliableBefore log i := by omega
    rw [hcounter] at hprogress
    rw [if_pos hpos]
    change Delivery log positions channel (some ⟨submission.packet.payload, .plain⟩, _)
    rw [← delivered_of_isUnreliable hkind]
    refine .next hget (isUnsequenced_of_isUnreliable hkind) { h with
      progress := ?_
      unreliable_ascending := hascending.tail
      unreliable_loose := fun entry hentry ↦ hloose entry (List.mem_cons_of_mem _ hentry)
      unreliable_ahead := ?_ }
    · simp only [unreliableArrival, hnumber, hcounter]
      exact hprogress.deliverUnreliable hlog hget hkind (Nat.lt_succ_iff.mp hunreliable)
    · intro entry hentry hnonzero
      exact ⟨hascending.lt_of_mem_tail (UInt32.ne_of_lt hpos).symm hentry,
        (hahead entry (List.mem_cons_of_mem _ hentry) hnonzero).2⟩

/-- A delivery brings the next packet in order, or an unsequenced one, or nothing. -/
theorem receive (h : Follows log positions channel) (hlog : Numbered log) :
    Delivery log positions channel channel.receive := by
  unfold Channel.receive
  split
  · rename_i hbuffer
    apply h.receiveReliable hlog
    rw [hbuffer]
    simp
  · rename_i head rest hbuffer
    split
    · rename_i hheld
      exact h.receiveReliable hlog (h.waiting hlog hbuffer hheld)
    · rename_i hfree
      exact h.receiveUnreliable hlog hbuffer hfree

end Follows

end Channel

end ReliableDatagram
