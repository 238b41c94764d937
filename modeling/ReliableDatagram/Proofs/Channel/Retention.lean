import ReliableDatagram.Proofs.Channel.Delivery

/-!
# Keeping what arrived

A reliable command is kept by a channel from its arrival on: its data waits in the buffer
until its packet is delivered. So a command that was acknowledged once need never be sent
again. If the channel keeps all reliable commands of a log, the next reliable packet is
always complete, and repeated deliveries bring every packet.
-/

namespace ReliableDatagram

open Submission

namespace Channel

/-- The data of a reliable command waits in the buffer: as an entry of its own, or as a
fragment that the run it belongs to has received. -/
inductive Stores (channel : Channel) (command : Command) : Prop where
  /-- The packet came whole. -/
  | entry {payload : Bytes} (hbody : command.body = .sendReliable payload)
      (hentry : ⟨command.sequence, 0, .packet ⟨payload, .reliable⟩⟩ ∈ channel.reliable)
  /-- The fragment is part of what has arrived of its packet. -/
  | piece {fragment : Fragment} {reassembly : Reassembly}
      (hbody : command.body = .sendFragment fragment)
      (hentry : ⟨fragment.start, 0, .fragments reassembly⟩ ∈ channel.reliable)
      (hpiece : fragment.toPiece ∈ reassembly.pieces)

/-- A reliable command was delivered with its packet, or its data waits. -/
def Keeps (channel : Channel) (command : Command) : Prop :=
  command.sequence ≤ channel.incomingReliable ∨ channel.Stores command

variable {log : List Submission} {positions : List Nat} {channel : Channel}
  {submission : Submission} {i : Nat} {command : Command}

/-- What is stored stays stored as long as whole entries and the fragments of runs do. -/
theorem Stores.mono {after : Channel} (h : channel.Stores command)
    (hpackets : ∀ entry ∈ channel.reliable, ∀ packet, entry.content = .packet packet →
      entry ∈ after.reliable)
    (hruns : ∀ start reassembly, ⟨start, 0, .fragments reassembly⟩ ∈ channel.reliable →
      ∃ grown : Reassembly, ⟨start, 0, .fragments grown⟩ ∈ after.reliable ∧
        reassembly.pieces ⊆ grown.pieces) : after.Stores command := by
  cases h with
  | entry hbody hentry => exact .entry hbody (hpackets _ hentry _ rfl)
  | piece hbody hentry hpiece =>
    obtain ⟨grown, hgrown, hsubset⟩ := hruns _ _ hentry
    exact .piece hbody hgrown (hsubset hpiece)

theorem Stores.of_subset {after : Channel} (h : channel.Stores command)
    (hsubset : channel.reliable ⊆ after.reliable) : after.Stores command :=
  h.mono (fun _ hentry _ _ ↦ hsubset hentry)
    fun _ reassembly hentry ↦ ⟨reassembly, hsubset hentry, List.Subset.refl _⟩

/-! ## Arrivals keep what is there -/

theorem Keeps.queueReliable (h : channel.Keeps command) (arrival : Arrival) :
    (channel.queueReliable arrival).2.Keeps command := by
  unfold Channel.queueReliable
  split
  · exact h
  · split
    · exact h
    · rename_i buffer hbuffer
      refine h.imp_right fun hstores ↦ hstores.of_subset ?_
      intro entry hentry
      exact (Arrival.mem_of_insertInto hbuffer).mpr (.inr hentry)

theorem Keeps.queueUnreliable (h : channel.Keeps command) (arrival : Arrival) :
    (channel.queueUnreliable arrival).2.Keeps command := by
  unfold Channel.queueUnreliable
  split
  · exact h
  · split
    · exact h
    · exact h.imp_right fun hstores ↦ hstores.of_subset (List.Subset.refl _)

theorem Keeps.queueUnsequenced (h : channel.Keeps command) (arrival : Arrival) :
    (channel.queueUnsequenced arrival).Keeps command :=
  h.imp_right fun hstores ↦ hstores.of_subset (List.Subset.refl _)

theorem Keeps.addFragment (h : channel.Keeps command) (fragment : Fragment) :
    (channel.addFragment fragment).Keeps command := by
  unfold Channel.addFragment
  split
  · exact h
  · split
    · exact h
    · rename_i reassembly hfound
      split
      · obtain ⟨front, entry, rest, hsplit, hsequence, hcontent, hset⟩ := findRun_eq_found hfound
        refine h.imp_right fun hstores ↦ hstores.mono ?_ ?_
        · intro other hother packet hpacket
          rw [hset]
          rw [hsplit, List.mem_append, List.mem_cons] at hother
          rcases hother with hother | rfl | hother
          · exact List.mem_append_left _ hother
          · rw [hcontent] at hpacket
            cases hpacket
          · exact List.mem_append_right _ (List.mem_cons_of_mem _ hother)
        · intro start other hother
          rw [hset]
          rw [hsplit, List.mem_append, List.mem_cons] at hother
          rcases hother with hother | rfl | hother
          · exact ⟨other, List.mem_append_left _ hother, List.Subset.refl _⟩
          · cases hcontent
            exact ⟨_, List.mem_append_right _ List.mem_cons_self,
              reassembly.pieces_subset_insert ..⟩
          · exact ⟨other, List.mem_append_right _ (List.mem_cons_of_mem _ hother),
              List.Subset.refl _⟩
      · exact h
    · exact h.queueReliable _

/-! ## What arrives is kept -/

/-- A whole packet that arrives is kept, be it for the first time or again. -/
theorem Follows.keeps_queueReliable (h : Follows log positions channel) (hlog : Numbered log)
    (hget : log[i]? = some submission) (hwhole : submission.isFragmented = false)
    {flags : UInt8} {lane : UInt8} (hreliable : submission.packet.isReliable = true) :
    (channel.queueReliable ⟨UInt32.ofNat (reliableBefore log i + 1), 0,
      .packet ⟨submission.packet.payload, .reliable⟩⟩).2.Keeps
        ⟨lane, flags, UInt32.ofNat (reliableBefore log i + 1),
          .sendReliable submission.packet.payload⟩ := by
  have hcarries : submission.Carries (reliableBefore log i)
      ⟨UInt32.ofNat (reliableBefore log i + 1), 0, .packet ⟨submission.packet.payload, .reliable⟩⟩ :=
    .whole hwhole hreliable
  unfold Channel.queueReliable
  split
  · rename_i hle
    exact .inl hle
  · split
    · rename_i hnone
      obtain ⟨entry, hentry, hsequence⟩ := Arrival.insertInto_eq_none hnone
      have hsame := h.eq_of_sequence_eq hlog hget hcarries.isReliable hentry hsequence
      cases hsame with
      | whole => exact .inr (.entry rfl hentry)
      | run hrun =>
        rw [hwhole] at hrun
        cases hrun
    · rename_i buffer hbuffer
      exact .inr (.entry rfl ((Arrival.mem_of_insertInto hbuffer).mpr (.inl rfl)))

/-- A packet of which one number was delivered was delivered whole. -/
theorem Follows.sequence_le (h : Follows log positions channel) (hlog : Numbered log)
    (hget : log[i]? = some submission)
    (hissues : submission.Issues (reliableBefore log i) command)
    (hpast : reliableBefore log i < channel.incomingReliable.toNat) :
    command.sequence ≤ channel.incomingReliable := by
  obtain ⟨k, -, hcounter⟩ := h.progress.boundary
  have hik : i < k := (reliableBefore_mono log).reflect_lt (by omega)
  have hmono : reliableBefore log (i + 1) ≤ reliableBefore log k := reliableBefore_mono _ hik
  have hbounds := hlog.sequence_of_issues hget hissues
  rw [UInt32.le_iff_toNat_le]
  omega

/-- A fragment that arrives is kept, be it for the first time or again. -/
theorem Follows.keeps_addFragment (h : Follows log positions channel) (hlog : Numbered log)
    (hget : log[i]? = some submission) (hrun : submission.isFragmented = true) {k : Nat}
    {fragment : Fragment}
    (hfragment : (Fragment.ofPayload (UInt32.ofNat (reliableBefore log i + 1))
      submission.fragmentLength submission.packet.payload)[k]? = some fragment) :
    (channel.addFragment fragment).Keeps ⟨submission.channel, Command.acknowledgeFlag,
      UInt32.ofNat (reliableBefore log i + 1 + k), .sendFragment fragment⟩ := by
  have hmem := List.mem_of_getElem? hget
  have hsize := hlog.positive _ hmem
  have hsmall := hlog.small _ hmem
  have hpart := List.mem_of_getElem? hfragment
  have hkind : submission.isReliable = true := by
    rw [Submission.isReliable, hrun, Bool.true_or]
  obtain ⟨hstart, htotal, hcount⟩ := Fragment.fields_of_mem hsize hsmall hpart
  unfold Channel.addFragment
  split
  · rename_i hle
    left
    apply h.sequence_le hlog hget (.fragment hrun hfragment)
    have hlt := hlog.before_add_length_lt hget
    have hpos := hlog.length_commands_pos hget hkind
    rw [hstart, UInt32.le_iff_toNat_le, UInt32.toNat_ofNat', Nat.mod_eq_of_lt (by omega)] at hle
    exact hle
  · rename_i hahead
    split
    · rename_i htaken
      obtain ⟨entry, hentry, hsequence, packet, hcontent⟩ := findRun_eq_taken htaken
      obtain ⟨reassembly, rfl, -⟩ := h.collects_of_sequence_eq hlog hget hrun hentry
        (hsequence.trans hstart)
      cases hcontent
    · rename_i reassembly hfound
      obtain ⟨front, entry, rest, hsplit, hsequence, hcontent, hset⟩ := findRun_eq_found hfound
      have hentry : entry ∈ channel.reliable := by
        rw [hsplit]
        exact List.mem_append_right _ List.mem_cons_self
      obtain ⟨other, rfl, hcollects⟩ := h.collects_of_sequence_eq hlog hget hrun hentry
        (hsequence.trans hstart)
      cases hcontent
      have hfits : reassembly.fits fragment.total.toNat fragment.count = true := by
        simp [Reassembly.fits, hcollects.total, hcollects.count, htotal, hcount]
      rw [if_pos hfits]
      refine .inr (.piece rfl ?_ (hcollects.mem_insert hsize hsmall hpart))
      rw [hset, hstart]
      exact List.mem_append_right _ List.mem_cons_self
    · rename_i habsent
      have hempty : Reassembly.Collects (UInt32.ofNat (reliableBefore log i + 1)) _ _ _ :=
        Reassembly.Collects.empty hsize hsmall
      unfold Channel.queueReliable
      dsimp only
      rw [if_neg hahead]
      split
      · rename_i hnone
        obtain ⟨entry, hentry, hsequence⟩ := Arrival.insertInto_eq_none hnone
        exact absurd hsequence (findRun_eq_absent habsent entry hentry)
      · rename_i buffer hbuffer
        refine .inr (.piece rfl ((Arrival.mem_of_insertInto hbuffer).mpr (.inl rfl)) ?_)
        rw [htotal, hcount]
        exact hempty.mem_insert hsize hsmall hpart

/-! ## Deliveries -/

/-- Delivering a reliable packet drops nothing but its own data. -/
theorem Keeps.receiveReliable (hkeeps : channel.Keeps command) (h : Follows log positions channel)
    (hlog : Numbered log) (hget : log[i]? = some submission)
    (hissues : submission.Issues (reliableBefore log i) command) :
    channel.receiveReliable.2.Keeps command := by
  rcases h.receiveReliable_eq with hnone | ⟨head, rest, hbuffer, -, hnumber, hsome⟩
  · rw [hnone]
    exact hkeeps
  rw [hsome]
  obtain ⟨hother, hcarries⟩ := h.reliable_firm head (hbuffer ▸ List.mem_cons_self)
  rename_i j other
  have hlast := hlog.last_toNat hother hcarries
  have hfirst := hlog.sequence_toNat hother hcarries
  -- Data stored in the entry that goes is data of the packet that is delivered.
  have hgone (hsequence : head.sequence = UInt32.ofNat (reliableBefore log i + 1)) :
      command.sequence ≤ head.sequence + (head.span - 1) := by
    have hkind := isReliable_of_issues hissues
    have hcarried := h.eq_of_sequence_eq hlog hget hkind (hbuffer ▸ List.mem_cons_self) hsequence
    rw [UInt32.le_iff_toNat_le, hlog.last_toNat hget hcarried]
    exact (hlog.sequence_of_issues hget hissues).2
  rcases hkeeps with hpast | hstores
  · left
    have hmono : reliableBefore log j ≤ reliableBefore log (j + 1) :=
      reliableBefore_mono _ (Nat.le_succ j)
    rw [UInt32.le_iff_toNat_le] at hpast ⊢
    simp only [hlast]
    omega
  · cases hstores with
    | entry hbody hentry =>
      rw [hbuffer] at hentry
      rcases List.mem_cons.mp hentry with rfl | hentry
      · left
        apply hgone
        cases hissues with
        | whole => rfl
        | fragment => cases hbody
      · exact .inr (.entry hbody hentry)
    | piece hbody hentry hpiece =>
      rw [hbuffer] at hentry
      rcases List.mem_cons.mp hentry with rfl | hentry
      · left
        apply hgone
        cases hissues with
        | whole => cases hbody
        | fragment hrun hfragment =>
          cases hbody
          have hmem := List.mem_of_getElem? hget
          exact (Fragment.fields_of_mem (hlog.positive _ hmem) (hlog.small _ hmem)
            (List.mem_of_getElem? hfragment)).1
      · exact .inr (.piece hbody hentry hpiece)

/-- A delivery drops nothing that is still to be delivered. -/
theorem Keeps.receive (hkeeps : channel.Keeps command) (h : Follows log positions channel)
    (hlog : Numbered log) (hget : log[i]? = some submission)
    (hissues : submission.Issues (reliableBefore log i) command) :
    channel.receive.2.Keeps command := by
  unfold Channel.receive
  split
  · exact hkeeps.receiveReliable h hlog hget hissues
  · split
    · exact hkeeps.receiveReliable h hlog hget hissues
    · exact hkeeps.imp_right fun hstores ↦ hstores.of_subset (List.Subset.refl _)

/-- The data of a packet that was not delivered is stored. -/
theorem Keeps.stores (hkeeps : channel.Keeps command) (h : Follows log positions channel)
    (hlog : Numbered log) (hget : log[i]? = some submission)
    (hissues : submission.Issues (reliableBefore log i) command) (hi : i ∉ positions) :
    channel.Stores command := by
  refine hkeeps.resolve_left fun hpast ↦ hi ?_
  rw [h.progress.complete i submission hget (isReliable_of_issues hissues)]
  obtain ⟨k, -, hcounter⟩ := h.progress.boundary
  have hbounds := hlog.sequence_of_issues hget hissues
  rw [UInt32.le_iff_toNat_le] at hpast
  have hik : i < k := (reliableBefore_mono log).reflect_lt (by omega)
  rw [hcounter]
  exact reliableBefore_mono _ hik

/-! ## Delivering everything -/

/-- A packet of which all commands are stored is complete in the buffer. -/
theorem Follows.exists_complete (h : Follows log positions channel) (hlog : Numbered log)
    (hget : log[i]? = some submission) (hkind : submission.isReliable = true)
    (hstores : ∀ command ∈ submission.commands, channel.Stores command) :
    ∃ entry ∈ channel.reliable, entry.sequence = UInt32.ofNat (reliableBefore log i + 1) ∧
      entry.remaining = 0 := by
  have hmem := List.mem_of_getElem? hget
  have hsize := hlog.positive _ hmem
  have hsmall := hlog.small _ hmem
  rw [hlog.commands i submission hget] at hstores
  cases hrun : submission.isFragmented with
  | false =>
    have hreliable : submission.packet.isReliable = true := by
      rw [Submission.isReliable, hrun, Bool.false_or] at hkind
      exact hkind
    cases hstores _ (mem_reliableCommands.mpr (.whole hrun hreliable)) with
    | entry hbody hentry => exact ⟨_, hentry, rfl, rfl⟩
    | piece hbody => cases hbody
  | true =>
    have hpiece (fragment : Fragment) (hfragment : fragment ∈ Fragment.ofPayload
        (UInt32.ofNat (reliableBefore log i + 1)) submission.fragmentLength
        submission.packet.payload) : ∃ reassembly,
        ⟨UInt32.ofNat (reliableBefore log i + 1), 0, .fragments reassembly⟩ ∈ channel.reliable ∧
          fragment.toPiece ∈ reassembly.pieces := by
      obtain ⟨k, hk⟩ := List.mem_iff_getElem?.mp hfragment
      cases hstores _ (mem_reliableCommands.mpr (.fragment hrun hk)) with
      | entry hbody => cases hbody
      | piece hbody hentry hheld =>
        cases hbody
        rw [(Fragment.fields_of_mem hsize hsmall hfragment).1] at hentry
        exact ⟨_, hentry, hheld⟩
    have hpayload : 0 < submission.packet.payload.length :=
      Nat.lt_of_le_of_lt (Nat.zero_le _) (of_decide_eq_true hrun)
    obtain ⟨fragment, hfragment, -⟩ := Fragment.exists_covering
      (UInt32.ofNat (reliableBefore log i + 1)) hsize hsmall hpayload
    obtain ⟨reassembly, hentry, -⟩ := hpiece fragment hfragment
    refine ⟨_, hentry, rfl, ?_⟩
    obtain ⟨other, hother, hcollects⟩ :=
      h.collects_of_sequence_eq hlog hget hrun hentry rfl
    cases hother
    apply hcollects.remaining_eq_zero hsize hsmall
    intro part hpart
    obtain ⟨twin, htwin, hheld⟩ := hpiece part hpart
    have hne : UInt32.ofNat (reliableBefore log i + 1) ≠ 0 := by
      intro hzero
      have hahead := h.reliable_ahead _ hentry
      rw [hzero] at hahead
      exact absurd hahead (UInt32.not_lt.mpr UInt32.zero_le)
    have hsame := h.reliable_ascending.eq_of_key_eq hentry htwin rfl hne
    cases hsame
    exact hheld

/-- If all commands of the next reliable packet are kept, it can be delivered. -/
theorem Follows.receiveReliable_ne_none (h : Follows log positions channel)
    (hlog : Numbered log) (hget : log[i]? = some submission)
    (hkind : submission.isReliable = true)
    (hnext : channel.incomingReliable.toNat = reliableBefore log i)
    (hkeeps : ∀ command ∈ submission.commands, channel.Keeps command) :
    channel.receiveReliable.1 ≠ none := by
  have hi : i ∉ positions := by
    rw [h.progress.complete i submission hget hkind, reliableBefore_succ hget]
    have hpos := hlog.length_commands_pos hget hkind
    omega
  obtain ⟨entry, hentry, hsequence, hcomplete⟩ := h.exists_complete hlog hget hkind
    fun command hcommand ↦ (hkeeps command hcommand).stores h hlog hget
      (hlog.issues_of_mem hget hcommand) hi
  have hnumber := hlog.sequence_toNat hget (h.eq_of_sequence_eq hlog hget hkind hentry hsequence)
  cases hbuffer : channel.reliable with
  | nil =>
    rw [hbuffer] at hentry
    cases hentry
  | cons head rest =>
    have hahead := h.reliable_ahead head (hbuffer ▸ List.mem_cons_self)
    have hascending := h.reliable_ascending
    rw [hbuffer] at hascending hentry
    -- No entry lies before the next number, so the complete packet is the foremost entry.
    have hfront : entry = head := by
      rcases List.mem_cons.mp hentry with heq | hrest
      · exact heq
      · have hne : head.sequence ≠ 0 := (UInt32.ne_of_lt
          (UInt32.lt_of_le_of_lt UInt32.zero_le hahead)).symm
        have hlt := hascending.lt_of_mem_tail hne hrest
        rw [UInt32.lt_iff_toNat_lt] at hlt hahead
        omega
    subst hfront
    have htake := Arrival.takeNext_cons rest hahead
    have hready : ¬ (0 < entry.remaining ∨
        channel.incomingReliable.toNat + 1 < entry.sequence.toNat) := by
      rw [hcomplete, not_or]
      exact ⟨UInt32.lt_irrefl 0, by omega⟩
    rw [if_neg hready] at htake
    unfold Channel.receiveReliable
    rw [hbuffer, htake]
    exact Option.some_ne_none _

theorem receiveReliable_eq_none
    (hnone : channel.receive.1 = none) : channel.receiveReliable.1 = none := by
  unfold Channel.receive at hnone
  split at hnone
  · exact hnone
  · split at hnone
    · exact hnone
    · cases hnone

/-- Once all reliable commands are kept and nothing can be delivered, every reliable packet
has been delivered. -/
theorem Follows.mem_of_receive_eq_none (h : Follows log positions channel) (hlog : Numbered log)
    (hkeeps : ∀ submission ∈ log, ∀ command ∈ submission.commands, channel.Keeps command)
    (hnone : channel.receive.1 = none) (hget : log[i]? = some submission)
    (hkind : submission.isReliable = true) : i ∈ positions := by
  -- By induction on the position, all numbers spent before it were delivered.
  have hall (j : Nat) (hj : j ≤ log.length) :
      reliableBefore log j ≤ channel.incomingReliable.toNat := by
    induction j with
    | zero => exact Nat.zero_le _
    | succ j ih =>
      have hother := List.getElem?_eq_getElem hj
      have hbefore := ih (Nat.le_of_succ_le hj)
      obtain ⟨k, -, hcounter⟩ := h.progress.boundary
      by_contra hbehind
      have hkj : k < j + 1 := (reliableBefore_mono log).reflect_lt (by omega)
      have hmono := reliableBefore_mono log (Nat.le_of_lt_succ hkj)
      have hspent : log[j].commands ≠ [] := by
        intro hnil
        rw [reliableBefore_succ hother, hnil] at hbehind
        exact hbehind hbefore
      obtain ⟨command, hcommand⟩ := List.exists_mem_of_ne_nil _ hspent
      exact h.receiveReliable_ne_none hlog hother
        (isReliable_of_issues (hlog.issues_of_mem hother hcommand)) (by omega)
        (hkeeps _ (List.getElem_mem hj)) (receiveReliable_eq_none hnone)
  rw [h.progress.complete i submission hget hkind]
  exact hall (i + 1) (List.getElem?_eq_some_iff.mp hget).1

/-- Every delivery takes something out of the buffers. -/
theorem pending_receive_lt {packet : Packet} {after : Channel}
    (h : channel.receive = (some packet, after)) : after.pending < channel.pending := by
  have hreliable (hdelivered : channel.receiveReliable = (some packet, after)) :
      after.pending < channel.pending := by
    unfold receiveReliable at hdelivered
    split at hdelivered
    · cases hdelivered
    · rename_i arrival buffer htake
      have hshorter := Arrival.length_takeNext_lt htake
      cases hdelivered
      exact Nat.add_lt_add_right hshorter _
  unfold receive at h
  split at h
  · exact hreliable h
  · rename_i head rest hunreliable
    split at h
    · exact hreliable h
    · cases h
      change _ + rest.length < _ + channel.unreliable.length
      rw [hunreliable, List.length_cons]
      exact Nat.lt_succ_self _

/-- If nothing can be delivered, nothing can be delivered the next time. -/
theorem receive_eq_none_again {after : Channel} (h : channel.receive = (none, after)) :
    after.receive.1 = none := by
  have hreliable (hnone : channel.receiveReliable = (none, after)) :
      after.receiveReliable.1 = none ∧ after.unreliable = channel.unreliable ∧
        after.incomingReliable = channel.incomingReliable := by
    unfold receiveReliable at hnone
    split at hnone
    · rename_i buffer htake
      cases hnone
      refine ⟨?_, rfl, rfl⟩
      unfold receiveReliable
      dsimp only
      rw [Arrival.takeNext_eq_none_again htake]
    · cases hnone
  unfold receive at h
  split at h
  · rename_i hempty
    obtain ⟨hnone, hunreliable, -⟩ := hreliable h
    rw [receive, hunreliable, hempty]
    exact hnone
  · rename_i head rest hbuffer
    split at h
    · rename_i hholds
      obtain ⟨hnone, hunreliable, hcounter⟩ := hreliable h
      have hstill : after.holdsBack head = true := by
        rw [holdsBack, hcounter]
        exact hholds
      rw [receive, hunreliable, hbuffer]
      dsimp only
      rw [if_pos hstill]
      exact hnone
    · cases h

end Channel

end ReliableDatagram
