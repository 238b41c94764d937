import ReliableDatagram.Proofs.Channel.Submissions

/-!
# Numbers that wrap

A sender numbers with words that wrap, and a receiver compares the numbers as they are. The
next packet on a channel whose two ends are in step is taken in whatever its number is, and
its fragments may go on beyond the greatest word. The one exception is a packet that begins
with the number 0: it looks like one that was delivered before, and everything that belongs to
it is dropped.
-/

namespace ReliableDatagram

def Channel.absorb (channel : Channel) (command : Command) : Channel :=
  match command.body with
  | .sendReliable payload =>
    (channel.queueReliable ⟨command.sequence, 0, .packet ⟨payload, .reliable⟩⟩).2
  | .sendUnreliable sequence payload =>
    (channel.queueUnreliable ⟨command.sequence, sequence, .packet ⟨payload, .plain⟩⟩).2
  | .sendFragment fragment => channel.addFragment fragment
  | _ => channel

/-- The receiving end of a channel waits for nothing and expects what the sending end will
number next. -/
structure Channel.InStep (sending receiving : Channel) : Prop where
  reliable : receiving.reliable = []
  unreliable : receiving.unreliable = []
  incomingReliable : receiving.incomingReliable = sending.outgoingReliable
  incomingUnreliable : receiving.incomingUnreliable = sending.outgoingUnreliable

/-- Where nothing waits, nothing is delivered. -/
theorem Channel.InStep.receive_eq_none {sending receiving : Channel}
    (h : Channel.InStep sending receiving) : receiving.receive.1 = none := by
  simp [Channel.receive, Channel.receiveReliable, h.unreliable, h.reliable, Arrival.takeNext]

namespace Submission

/-- The number that a packet begins with when it is sent on a channel. -/
def number (submission : Submission) (sending : Channel) : UInt32 :=
  (if submission.isReliable then sending.outgoingReliable else sending.outgoingUnreliable) + 1

def issued (submission : Submission) (sending : Channel) : List Command :=
  if submission.isReliable then submission.reliableCommands sending.outgoingReliable.toNat
  else [submission.unreliableCommand sending.outgoingReliable.toNat
    sending.outgoingUnreliable.toNat]

def advance (submission : Submission) (sending : Channel) : Channel :=
  { sending with
    outgoingReliable := sending.outgoingReliable + UInt32.ofNat
      (submission.reliableCommands sending.outgoingReliable.toNat).length
    outgoingUnreliable := sending.outgoingUnreliable + if submission.isUnreliable then 1 else 0 }

/-- A packet that is sent in sequence and whose size a word can tell. -/
structure InSequence (submission : Submission) : Prop where
  sequenced : submission.isUnsequenced = false
  fragmentLength : 0 < submission.fragmentLength
  small : submission.packet.payload.length < 4294967296

/-- What the receiving end has become when some commands of the packet have arrived. -/
inductive Gathers (submission : Submission) (sending receiving : Channel)
    (arrived : List Command) : Channel → Prop where
  | nothing (harrived : arrived = []) : Gathers submission sending receiving arrived receiving
  | whole (hwhole : submission.isFragmented = false)
      (hreliable : submission.packet.isReliable = true) :
      Gathers submission sending receiving arrived { receiving with
        reliable := [⟨sending.outgoingReliable + 1, 0,
          .packet ⟨submission.packet.payload, .reliable⟩⟩] }
  /-- The packet has come, unreliably. -/
  | plain (hunreliable : submission.isUnreliable = true) :
      Gathers submission sending receiving arrived { receiving with
        unreliable := [⟨sending.outgoingReliable, sending.outgoingUnreliable + 1,
          .packet ⟨submission.packet.payload, .plain⟩⟩] }
  | run {reassembly : Reassembly} (hrun : submission.isFragmented = true)
      (hcollects : reassembly.Collects (sending.outgoingReliable + 1) submission.fragmentLength
        submission.packet.payload)
      (harrived : ∀ command ∈ arrived, ∀ fragment, command.body = .sendFragment fragment →
        fragment.toPiece ∈ reassembly.pieces) :
      Gathers submission sending receiving arrived { receiving with
        reliable := [⟨sending.outgoingReliable + 1, 0, .fragments reassembly⟩] }

variable {submission : Submission} {sending receiving channel : Channel} {command : Command}
  {arrived : List Command}

theorem ofNat_toNat_add_one (word : UInt32) : UInt32.ofNat (word.toNat + 1) = word + 1 := by
  rw [UInt32.ofNat_add, UInt32.ofNat_toNat]
  rfl

/-- The cases of a command that belongs to a packet sent in sequence. -/
theorem InSequence.cases_of_mem (hpacket : submission.InSequence)
    (h : command ∈ submission.issued sending) :
    (submission.isFragmented = false ∧ submission.packet.isReliable = true ∧
      command = ⟨submission.channel, Command.acknowledgeFlag, sending.outgoingReliable + 1,
        .sendReliable submission.packet.payload⟩) ∨
    (submission.isUnreliable = true ∧
      command = ⟨submission.channel, 0, sending.outgoingReliable,
        .sendUnreliable (sending.outgoingUnreliable + 1) submission.packet.payload⟩) ∨
    (submission.isFragmented = true ∧ ∃ sequence, ∃ fragment ∈ Fragment.ofPayload
        (sending.outgoingReliable + 1) submission.fragmentLength submission.packet.payload,
      command = ⟨submission.channel, Command.acknowledgeFlag, sequence,
        .sendFragment fragment⟩) := by
  unfold issued at h
  split at h
  · rw [mem_reliableCommands] at h
    cases h with
    | whole hwhole hreliable =>
      rw [ofNat_toNat_add_one]
      exact .inl ⟨hwhole, hreliable, rfl⟩
    | @fragment k fragment hrun hfragment =>
      rw [ofNat_toNat_add_one] at hfragment
      exact .inr (.inr ⟨hrun, _, fragment, List.mem_of_getElem? hfragment, rfl⟩)
  · rename_i hunreliable
    have hsequenced := hpacket.sequenced
    rw [isUnsequenced, Bool.eq_false_iff.mpr hunreliable, Bool.not_false,
      Bool.true_and] at hsequenced
    rw [List.mem_singleton.mp h, unreliableCommand, ofNat_toNat_add_one, UInt32.ofNat_toNat]
    refine .inr (.inl ⟨?_, rfl⟩)
    rw [isUnreliable, Bool.eq_false_iff.mpr hunreliable, hsequenced]
    rfl

theorem number_of_isReliable (h : submission.isReliable = true) (sending : Channel) :
    submission.number sending = sending.outgoingReliable + 1 := by
  rw [number, if_pos h]

theorem number_of_isUnreliable (h : submission.isUnreliable = true) (sending : Channel) :
    submission.number sending = sending.outgoingUnreliable + 1 := by
  rw [isUnreliable, Bool.and_eq_true, Bool.not_eq_true'] at h
  rw [number, h.1, if_neg Bool.false_ne_true]

theorem reliableCommands_of_isUnreliable (h : submission.isUnreliable = true) (before : Nat) :
    submission.reliableCommands before = [] := by
  rw [isUnreliable, isReliable, Bool.and_eq_true, Bool.not_eq_true', Bool.or_eq_false_iff] at h
  simp [reliableCommands, h.1]

theorem payload_ne_nil (hrun : submission.isFragmented = true) :
    submission.packet.payload ≠ [] := by
  intro hnil
  have hlong := of_decide_eq_true hrun
  rw [Packet.size, hnil] at hlong
  exact Nat.not_lt_zero _ hlong

theorem issued_ne_nil (hpacket : submission.InSequence) (sending : Channel) :
    submission.issued sending ≠ [] := by
  unfold issued
  split
  · rename_i hreliable
    unfold reliableCommands
    split
    · rename_i hrun
      rw [← List.length_pos_iff, List.length_mapIdx, Fragment.length_ofPayload,
        Bytes.chunks_eq hpacket.fragmentLength (payload_ne_nil hrun)]
      exact Nat.succ_pos _
    · rename_i hwhole
      rw [isReliable, Bool.eq_false_iff.mpr hwhole, Bool.false_or] at hreliable
      rw [if_pos hreliable]
      exact List.cons_ne_nil _ _
  · exact List.cons_ne_nil _ _

/-! ## The number 0 -/

/-- What begins with the number 0 is dropped. -/
theorem InSequence.absorb_of_number_eq_zero (hpacket : submission.InSequence)
    (hzero : submission.number sending = 0) (hmem : command ∈ submission.issued sending)
    (receiving : Channel) : receiving.absorb command = receiving := by
  rcases hpacket.cases_of_mem hmem with ⟨-, hreliable, rfl⟩ | ⟨hunreliable, rfl⟩ |
    ⟨hrun, sequence, fragment, hfragment, rfl⟩
  · have hkind : submission.isReliable = true := by rw [isReliable, hreliable, Bool.or_true]
    rw [number_of_isReliable hkind] at hzero
    simp [Channel.absorb, Channel.queueReliable, hzero]
  · rw [number_of_isUnreliable hunreliable] at hzero
    simp [Channel.absorb, Channel.queueUnreliable, hzero]
  · have hkind : submission.isReliable = true := by rw [isReliable, hrun, Bool.true_or]
    rw [number_of_isReliable hkind] at hzero
    have hstart := (Fragment.fields_of_mem hpacket.fragmentLength hpacket.small hfragment).1
    simp [Channel.absorb, Channel.addFragment, hstart, hzero]

theorem InSequence.absorbAll_of_number_eq_zero (hpacket : submission.InSequence)
    (hzero : submission.number sending = 0) {commands : List Command}
    (hcommands : commands ⊆ submission.issued sending) (receiving : Channel) :
    commands.foldl Channel.absorb receiving = receiving := by
  induction commands with
  | nil => rfl
  | cons command rest ih =>
    obtain ⟨hmem, hrest⟩ := List.cons_subset.mp hcommands
    rw [List.foldl_cons, hpacket.absorb_of_number_eq_zero hzero hmem]
    exact ih hrest

/-! ## Any other number -/

theorem lt_add_one {word : UInt32} (h : word + 1 ≠ 0) :
    word < word + 1 ∧ (word + 1).toNat = word.toNat + 1 := by
  have hnat : (word + 1).toNat = word.toNat + 1 := by
    have hlt := word.toNat_lt
    have hne : word.toNat + 1 ≠ 4294967296 := by
      intro hmax
      apply h
      apply UInt32.toNat_inj.mp
      rw [UInt32.toNat_add, UInt32.toNat_one, hmax]
      rfl
    rw [UInt32.toNat_add, UInt32.toNat_one]
    omega
  refine ⟨?_, hnat⟩
  rw [UInt32.lt_iff_toNat_lt, hnat]
  omega

theorem Gathers.absorb_whole (h : submission.Gathers sending receiving arrived channel)
    (hin : Channel.InStep sending receiving) (hnumber : sending.outgoingReliable + 1 ≠ 0)
    (hwhole : submission.isFragmented = false) (hreliable : submission.packet.isReliable = true)
    (hbody : command.body = .sendReliable submission.packet.payload)
    (hsequence : command.sequence = sending.outgoingReliable + 1) :
    submission.Gathers sending receiving (command :: arrived) (channel.absorb command) := by
  have hnew : ¬ sending.outgoingReliable + 1 ≤ sending.outgoingReliable :=
    UInt32.not_le.mpr (lt_add_one hnumber).1
  have hgathers : submission.Gathers sending receiving (command :: arrived) _ :=
    .whole hwhole hreliable
  cases h with
  | nothing =>
    simpa [Channel.absorb, hbody, hsequence, Channel.queueReliable, hin.incomingReliable, hnew,
      hin.reliable, Arrival.insertInto, Arrival.place] using hgathers
  | whole =>
    simpa [Channel.absorb, hbody, hsequence, Channel.queueReliable, hin.incomingReliable, hnew,
      Arrival.insertInto, Arrival.place] using hgathers
  | plain hunreliable => simp [isUnreliable, isReliable, hreliable] at hunreliable
  | run hrun => simp [hwhole] at hrun

theorem Gathers.absorb_plain (h : submission.Gathers sending receiving arrived channel)
    (hin : Channel.InStep sending receiving) (hnumber : sending.outgoingUnreliable + 1 ≠ 0)
    (hunreliable : submission.isUnreliable = true)
    (hbody : command.body =
      .sendUnreliable (sending.outgoingUnreliable + 1) submission.packet.payload)
    (hsequence : command.sequence = sending.outgoingReliable) :
    submission.Gathers sending receiving (command :: arrived) (channel.absorb command) := by
  have hnew : ¬ sending.outgoingUnreliable + 1 ≤ sending.outgoingUnreliable :=
    UInt32.not_le.mpr (lt_add_one hnumber).1
  have hgathers : submission.Gathers sending receiving (command :: arrived) _ :=
    .plain hunreliable
  cases h with
  | nothing =>
    simpa [Channel.absorb, hbody, hsequence, Channel.queueUnreliable, hin.incomingReliable,
      hin.incomingUnreliable, hnew, hin.unreliable, Arrival.insertInto, Arrival.place]
      using hgathers
  | whole hwhole hreliable => simp [isUnreliable, isReliable, hreliable] at hunreliable
  | plain =>
    simpa [Channel.absorb, hbody, hsequence, Channel.queueUnreliable, hin.incomingReliable,
      hin.incomingUnreliable, hnew, Arrival.insertInto, Arrival.place] using hgathers
  | run hrun => simp [isUnreliable, isReliable, hrun] at hunreliable

theorem Gathers.absorb_fragment (h : submission.Gathers sending receiving arrived channel)
    (hpacket : submission.InSequence) (hin : Channel.InStep sending receiving)
    (hnumber : sending.outgoingReliable + 1 ≠ 0) (hrun : submission.isFragmented = true)
    {fragment : Fragment} (hfragment : fragment ∈ Fragment.ofPayload (sending.outgoingReliable + 1)
      submission.fragmentLength submission.packet.payload)
    (hbody : command.body = .sendFragment fragment) :
    submission.Gathers sending receiving (command :: arrived) (channel.absorb command) := by
  obtain ⟨hstart, htotal, hcount⟩ :=
    Fragment.fields_of_mem hpacket.fragmentLength hpacket.small hfragment
  have hnew : ¬ sending.outgoingReliable + 1 ≤ sending.outgoingReliable :=
    UInt32.not_le.mpr (lt_add_one hnumber).1
  -- Whatever was kept before, this fragment is kept now, and nothing is lost.
  have hgathers {reassembly : Reassembly} (hcollects : reassembly.Collects
        (sending.outgoingReliable + 1) submission.fragmentLength submission.packet.payload)
      (harrived : ∀ other ∈ arrived, ∀ piece, other.body = .sendFragment piece →
        piece.toPiece ∈ reassembly.pieces) :
      submission.Gathers sending receiving (command :: arrived) { receiving with
        reliable := [⟨sending.outgoingReliable + 1, 0, .fragments (reassembly.insert
          fragment.number fragment.offset.toNat fragment.payload).2⟩] } := by
    refine .run hrun (hcollects.insert hfragment) fun other hother piece hpiece ↦ ?_
    rcases List.mem_cons.mp hother with rfl | hother
    · rw [hbody, Body.sendFragment.injEq] at hpiece
      rw [← hpiece]
      exact hcollects.mem_insert hpacket.fragmentLength hpacket.small hfragment
    · exact Reassembly.pieces_subset_insert _ _ _ _ (harrived other hother piece hpiece)
  cases h with
  | nothing harrived =>
    have hfresh := hgathers
      (Reassembly.Collects.empty hpacket.fragmentLength hpacket.small) (by simp [harrived])
    simpa [Channel.absorb, hbody, Channel.addFragment, Channel.findRun, Channel.queueReliable,
      hstart, htotal, hcount, hin.incomingReliable, hnew, hin.reliable, Arrival.insertInto,
      Arrival.place] using hfresh
  | whole hwhole => simp [hrun] at hwhole
  | plain hunreliable => simp [isUnreliable, isReliable, hrun] at hunreliable
  | run _ hcollects harrived =>
    simpa [Channel.absorb, hbody, Channel.addFragment, Channel.findRun, Channel.setRun,
      Channel.replaceRun, Reassembly.fits, hstart, htotal, hcount, hcollects.total,
      hcollects.count, hin.incomingReliable, hnew] using hgathers hcollects harrived

/-- A command that arrives joins what has arrived of its packet. -/
theorem Gathers.absorb (h : submission.Gathers sending receiving arrived channel)
    (hpacket : submission.InSequence) (hin : Channel.InStep sending receiving)
    (hnumber : submission.number sending ≠ 0) (hmem : command ∈ submission.issued sending) :
    submission.Gathers sending receiving (command :: arrived) (channel.absorb command) := by
  rcases hpacket.cases_of_mem hmem with ⟨hwhole, hreliable, rfl⟩ | ⟨hunreliable, rfl⟩ |
    ⟨hrun, sequence, fragment, hfragment, rfl⟩
  · have hkind : submission.isReliable = true := by rw [isReliable, hreliable, Bool.or_true]
    rw [number_of_isReliable hkind] at hnumber
    exact h.absorb_whole hin hnumber hwhole hreliable rfl rfl
  · rw [number_of_isUnreliable hunreliable] at hnumber
    exact h.absorb_plain hin hnumber hunreliable rfl rfl
  · have hkind : submission.isReliable = true := by rw [isReliable, hrun, Bool.true_or]
    rw [number_of_isReliable hkind] at hnumber
    exact h.absorb_fragment hpacket hin hnumber hrun hfragment rfl

/-- Whatever commands of the packet arrive, in any order and any number of times, join. -/
theorem Gathers.absorbAll (h : submission.Gathers sending receiving arrived channel)
    (hpacket : submission.InSequence) (hin : Channel.InStep sending receiving)
    (hnumber : submission.number sending ≠ 0) {commands : List Command}
    (hcommands : commands ⊆ submission.issued sending) :
    submission.Gathers sending receiving (commands.reverse ++ arrived)
      (commands.foldl Channel.absorb channel) := by
  induction commands generalizing channel arrived with
  | nil => exact h
  | cons command rest ih =>
    obtain ⟨hmem, hrest⟩ := List.cons_subset.mp hcommands
    rw [List.reverse_cons, List.append_assoc, List.singleton_append, List.foldl_cons]
    exact ih (h.absorb hpacket hin hnumber hmem) hrest

/-- A packet all of whose commands have arrived is delivered, and the ends are in step again. -/
theorem Gathers.receive (h : submission.Gathers sending receiving arrived channel)
    (hpacket : submission.InSequence) (hin : Channel.InStep sending receiving)
    (hnumber : submission.number sending ≠ 0) (hall : submission.issued sending ⊆ arrived) :
    channel.receive.1 = some submission.delivered ∧
      Channel.InStep (submission.advance sending) channel.receive.2 := by
  cases h with
  | nothing harrived =>
    rw [harrived] at hall
    exact absurd (List.subset_nil.mp hall) (issued_ne_nil hpacket sending)
  | whole hwhole hreliable =>
    have hkind : submission.isReliable = true := by rw [isReliable, hreliable, Bool.or_true]
    have hsequenced := isUnreliable_of_isReliable hkind
    rw [number_of_isReliable hkind] at hnumber
    obtain ⟨hlt, hnat⟩ := lt_add_one hnumber
    have hreceive : ({ receiving with
        reliable := [⟨sending.outgoingReliable + 1, 0,
          .packet ⟨submission.packet.payload, .reliable⟩⟩] } : Channel).receive =
        (some submission.delivered,
          { receiving with incomingReliable := sending.outgoingReliable + 1 }) := by
      simp [Channel.receive, Channel.receiveReliable, hin.unreliable, hin.incomingReliable,
        hin.reliable, Arrival.takeNext, Arrival.remaining, Arrival.span, Arrival.toPacket, hlt,
        hnat, delivered, hkind]
    rw [hreceive]
    refine ⟨rfl, ⟨hin.reliable, hin.unreliable, ?_, ?_⟩⟩
    · simp [advance, reliableCommands, hwhole, hreliable]
    · simp [advance, hsequenced, hin.incomingUnreliable]
  | plain hunreliable =>
    rw [number_of_isUnreliable hunreliable] at hnumber
    obtain ⟨hlt, hnat⟩ := lt_add_one hnumber
    have hpositive : 0 < sending.outgoingUnreliable + 1 := by
      rw [UInt32.lt_iff_toNat_lt, hnat]
      exact Nat.succ_pos _
    have hreceive : ({ receiving with
        unreliable := [⟨sending.outgoingReliable, sending.outgoingUnreliable + 1,
          .packet ⟨submission.packet.payload, .plain⟩⟩] } : Channel).receive =
        (some submission.delivered, { receiving with
          incomingUnreliable := sending.outgoingUnreliable + 1 }) := by
      simp [Channel.receive, Channel.holdsBack, hin.incomingReliable, hin.unreliable,
        Arrival.toPacket, hpositive, delivered_of_isUnreliable hunreliable]
    rw [hreceive]
    refine ⟨rfl, ⟨hin.reliable, hin.unreliable, ?_, ?_⟩⟩
    · simp [advance, reliableCommands_of_isUnreliable hunreliable, hin.incomingReliable]
    · simp [advance, hunreliable]
  | @run reassembly hrun hcollects harrived =>
    have hkind : submission.isReliable = true := by rw [isReliable, hrun, Bool.true_or]
    have hsequenced := isUnreliable_of_isReliable hkind
    rw [number_of_isReliable hkind] at hnumber
    obtain ⟨hlt, hnat⟩ := lt_add_one hnumber
    have hcomplete : reassembly.remaining = 0 := by
      apply hcollects.remaining_eq_zero hpacket.fragmentLength hpacket.small
      intro fragment hfragment
      obtain ⟨k, hget⟩ := List.mem_iff_getElem?.mp hfragment
      rw [← ofNat_toNat_add_one] at hget
      have hissued := mem_reliableCommands.mpr (Issues.fragment hrun hget)
      rw [issued, if_pos hkind] at hall
      exact harrived _ (hall hissued) fragment rfl
    have hbytes := hcollects.bytes_eq hcomplete hpacket.fragmentLength hpacket.small
    have hreceive : ({ receiving with
        reliable := [⟨sending.outgoingReliable + 1, 0, .fragments reassembly⟩] } :
          Channel).receive = (some submission.delivered, { receiving with
            incomingReliable := sending.outgoingReliable + 1 + (max reassembly.count 1 - 1) }) := by
      simp [Channel.receive, Channel.receiveReliable, hin.unreliable, hin.incomingReliable,
        hin.reliable, Arrival.takeNext, Arrival.remaining, Arrival.span, Arrival.toPacket, hlt,
        hnat, delivered, hkind, hcomplete, hbytes]
    rw [hreceive]
    refine ⟨rfl, ⟨hin.reliable, hin.unreliable, ?_, ?_⟩⟩
    · have hspan := hcollects.max_count_eq hpacket.fragmentLength hpacket.small
        (payload_ne_nil hrun)
      have hlength : (submission.reliableCommands sending.outgoingReliable.toNat).length =
          (submission.packet.payload.chunks submission.fragmentLength).length := by
        rw [reliableCommands, if_pos hrun, List.length_mapIdx, Fragment.length_ofPayload]
      rw [advance, hspan, hlength, hcollects.count]
      grind
    · simp [advance, hsequenced, hin.incomingUnreliable]

end Submission

end ReliableDatagram
