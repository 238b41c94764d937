import ReliableDatagram.Proofs.Channel.Submissions

/-!
# What queueing a command does

Queueing numbers a command and puts it behind the others of its kind. A command on the
control channel takes the next control number; a reliable command takes the next reliable
number of its channel, an unreliable one the next unreliable number beside the last reliable
one, and an unsequenced one none.
-/

namespace ReliableDatagram

theorem Word.add_one_add_ofNat (word : Word) (k : Nat) :
    word + 1 + UInt32.ofNat k = word + UInt32.ofNat (k + 1) := by
  rw [UInt32.ofNat_add, UInt32.add_assoc, UInt32.add_comm 1]
  rfl

namespace Peer

/-- The reliable commands that were sent and not acknowledged, and those that wait. -/
def outstanding (peer : Peer) : List Command :=
  (peer.sent ++ peer.reliable).map (·.command)

theorem mem_outstanding {peer : Peer} {command : Command} :
    command ∈ peer.outstanding ↔
      command ∈ peer.sent.map (·.command) ∨ command ∈ peer.reliable.map (·.command) := by
  rw [outstanding, List.map_append, List.mem_append]

/-- What a connection is known by: where its other end is, and its challenge. -/
def known (peer : Peer) : Option Address × UInt32 := (peer.address, peer.challenge)

/-- An acknowledgement goes behind those that wait, if the state of the connection allows it. -/
theorem queueAcknowledgement_eq (peer : Peer) (command : Command) (sentTime : Stamp) :
    ∃ total waiting, peer.queueAcknowledgement command sentTime =
        { peer with outgoingTotal := total, acknowledgements := waiting } ∧
      ∀ acknowledgement ∈ waiting, acknowledgement ∈ peer.acknowledgements ∨
        acknowledges peer.state command.tag = true ∧
          acknowledgement = .ofCommand command sentTime := by
  unfold queueAcknowledgement
  split
  · rename_i hallows
    refine ⟨_, _, rfl, fun acknowledgement hmem ↦ ?_⟩
    rw [List.mem_append, List.mem_singleton] at hmem
    exact hmem.imp_right fun heq ↦ ⟨hallows, heq⟩
  · exact ⟨_, _, rfl, fun _ hmem ↦ .inl hmem⟩

/-- A control command takes the next control number. -/
theorem queueControl_eq (peer : Peer) (body : Body) :
    peer.queueControl body = { peer with
      outgoingTotal := peer.outgoingTotal + UInt32.ofNat
        (Command.unnumbered body controlChannel Command.acknowledgeFlag).encodedLength
      controlSequence := peer.controlSequence + 1
      reliable := peer.reliable ++ [{ command :=
        ⟨controlChannel, Command.acknowledgeFlag, peer.controlSequence + 1, body⟩ }] } := by
  simp [queueControl, queueCommand, number, Command.unnumbered, Command.requiresAcknowledgement]

variable {peer after : Peer} {channel : UInt8} {value : Channel}

/-! ## What queueing leaves alone -/

/-- Only the counters that number commands and the queues of what waits to be sent may differ. -/
structure Enqueues (peer after : Peer) : Prop where
  channels : after.channels.length = peer.channels.length
  frame : after = { peer with
    outgoingTotal := after.outgoingTotal
    controlSequence := after.controlSequence
    groups := after.groups
    channels := after.channels
    reliable := after.reliable
    unreliable := after.unreliable }

namespace Enqueues

variable {middle : Peer}

theorem refl (peer : Peer) : Enqueues peer peer := ⟨rfl, rfl⟩

theorem trans (h : Enqueues peer middle) (hnext : Enqueues middle after) : Enqueues peer after where
  channels := hnext.channels.trans h.channels
  frame := by rw [hnext.frame, h.frame]

theorem state (h : Enqueues peer after) : after.state = peer.state := by rw [h.frame]

theorem settings (h : Enqueues peer after) : after.settings = peer.settings := by rw [h.frame]

theorem known (h : Enqueues peer after) : after.known = peer.known := by
  rw [h.frame]
  rfl

end Enqueues

theorem number_enqueues (peer : Peer) (command : Command) :
    Enqueues peer (peer.number command).2 := by
  unfold number
  dsimp only
  repeat' split
  all_goals first | exact .refl peer | exact ⟨rfl, rfl⟩ | exact ⟨List.length_set, rfl⟩

theorem queueCommand_enqueues (peer : Peer) (command : Command) :
    Enqueues peer (peer.queueCommand command) := by
  have hcounted : Enqueues peer { peer with
      outgoingTotal := peer.outgoingTotal + UInt32.ofNat command.encodedLength } := ⟨rfl, rfl⟩
  have hnumbered := hcounted.trans (number_enqueues _ command)
  unfold queueCommand
  dsimp only
  split <;> exact hnumbered.trans ⟨rfl, rfl⟩

theorem queueControl_enqueues (peer : Peer) (body : Body) :
    Enqueues peer (peer.queueControl body) := peer.queueCommand_enqueues _

theorem queueFragments_enqueues (peer : Peer) (channel : UInt8) (fragments : List Fragment) :
    Enqueues peer (peer.queueFragments channel fragments) := by
  unfold queueFragments
  induction fragments generalizing peer with
  | nil => exact .refl peer
  | cons fragment rest ih => exact (peer.queueCommand_enqueues _).trans (ih _)

theorem ping_enqueues (peer : Peer) : Enqueues peer peer.ping := by
  unfold ping
  split
  · exact peer.queueControl_enqueues .ping
  · exact .refl peer

/-! ## What leaving leaves alone -/

/-- Moreover, the queues may have been emptied, and the state may have changed. -/
structure Leaves (peer after : Peer) : Prop where
  channels : after.channels.length = peer.channels.length
  frame : after = { peer with
    state := after.state
    outgoingTotal := after.outgoingTotal
    inTransit := after.inTransit
    controlSequence := after.controlSequence
    groups := after.groups
    channels := after.channels
    acknowledgements := after.acknowledgements
    reliable := after.reliable
    unreliable := after.unreliable
    sent := after.sent }

namespace Leaves

theorem refl (peer : Peer) : Leaves peer peer := ⟨rfl, rfl⟩

theorem of_enqueues (h : Enqueues peer.clearQueues after) : Leaves peer after where
  channels := h.channels.trans (List.length_map _)
  frame := by
    rw [h.frame]
    rfl

theorem known (h : Leaves peer after) : after.known = peer.known := by
  rw [h.frame]
  rfl

end Leaves

theorem disconnect_leaves (peer : Peer) : Leaves peer peer.disconnect.2 := by
  unfold disconnect
  split
  · exact .refl peer
  · split
    · have hasked := peer.clearQueues.queueControl_enqueues .disconnect
      obtain ⟨hchannels, hframe⟩ := Leaves.of_enqueues hasked
      exact ⟨hchannels, by rw [hframe]⟩
    · dsimp only
      exact .of_enqueues (peer.clearQueues.queueCommand_enqueues _)

theorem disconnectNow_leaves (peer : Peer) : Leaves peer peer.disconnectNow.2 := by
  unfold disconnectNow
  split
  · exact .refl peer
  · dsimp only
    exact .of_enqueues (peer.clearQueues.queueCommand_enqueues _)

/-! ## The numbers of commands -/

theorem requiresAcknowledgement_of_flags {command : Command}
    (h : command.flags = Command.acknowledgeFlag) : command.requiresAcknowledgement = true := by
  rw [Command.requiresAcknowledgement, h]
  rfl

theorem requiresAcknowledgement_of_unsequenced {command : Command}
    (h : command.flags = Command.unsequencedFlag) : command.requiresAcknowledgement = false := by
  rw [Command.requiresAcknowledgement, h]
  rfl

theorem requiresAcknowledgement_of_plain {command : Command} (h : command.flags = 0) :
    command.requiresAcknowledgement = false := by
  rw [Command.requiresAcknowledgement, h]
  rfl

/-- A reliable command takes the next reliable number of its channel. -/
theorem queueCommand_reliable (hdata : channel ≠ controlChannel)
    (hvalue : peer.channel? channel = some value) (body : Body) :
    peer.queueCommand (.unnumbered body channel Command.acknowledgeFlag) = { peer with
      outgoingTotal := peer.outgoingTotal + UInt32.ofNat
        (Command.unnumbered body channel Command.acknowledgeFlag).encodedLength
      channels := peer.channels.set channel.toNat
        { value with outgoingReliable := value.outgoingReliable + 1 }
      reliable := peer.reliable ++ [{ command :=
        ⟨channel, Command.acknowledgeFlag, value.outgoingReliable + 1, body⟩ }] } := by
  have hflag (sequence : UInt32) : (⟨channel, Command.acknowledgeFlag, sequence, body⟩ :
      Command).requiresAcknowledgement = true := requiresAcknowledgement_of_flags rfl
  rw [channel?] at hvalue
  simp [queueCommand, number, Command.unnumbered, hdata, hflag, channel?, hvalue, setChannel]

/-- An unreliable command takes the next unreliable number of its channel, beside the last
reliable one. -/
theorem queueCommand_unreliable (hdata : channel ≠ controlChannel)
    (hvalue : peer.channel? channel = some value) (payload : Bytes) :
    peer.queueCommand (.unnumbered (.sendUnreliable 0 payload) channel 0) = { peer with
      outgoingTotal := peer.outgoingTotal + UInt32.ofNat
        (Command.unnumbered (.sendUnreliable 0 payload) channel 0).encodedLength
      channels := peer.channels.set channel.toNat
        { value with outgoingUnreliable := value.outgoingUnreliable + 1 }
      unreliable := peer.unreliable ++ [{ command := ⟨channel, 0, value.outgoingReliable,
        .sendUnreliable (value.outgoingUnreliable + 1) payload⟩ }] } := by
  have hflag (sequence : UInt32) (body : Body) : (⟨channel, 0, sequence, body⟩ :
      Command).requiresAcknowledgement = false := requiresAcknowledgement_of_plain rfl
  have hplain (sequence : UInt32) (body : Body) : (⟨channel, 0, sequence, body⟩ :
      Command).isUnsequenced = false := by
    change ((0 : UInt8) &&& 2 == 2) = false
    decide
  rw [channel?] at hvalue
  simp [queueCommand, number, Command.unnumbered, hdata, hflag, hplain, channel?, hvalue,
    setChannel]

/-- An unsequenced command takes no number of its channel. -/
theorem queueCommand_unsequenced (hdata : channel ≠ controlChannel) (payload : Bytes) :
    peer.queueCommand (.unnumbered (.sendUnsequenced 0 payload) channel Command.unsequencedFlag) =
      { peer with
        outgoingTotal := peer.outgoingTotal + UInt32.ofNat (Command.unnumbered
          (.sendUnsequenced 0 payload) channel Command.unsequencedFlag).encodedLength
        groups := peer.groups.next.2
        unreliable := peer.unreliable ++ [{ command := ⟨channel, Command.unsequencedFlag, 0,
          .sendUnsequenced peer.groups.next.1 payload⟩ }] } := by
  have hflag (sequence : UInt32) (body : Body) : (⟨channel, Command.unsequencedFlag, sequence,
      body⟩ : Command).requiresAcknowledgement = false :=
    requiresAcknowledgement_of_unsequenced rfl
  have hloose (sequence : UInt32) (body : Body) : (⟨channel, Command.unsequencedFlag, sequence,
      body⟩ : Command).isUnsequenced = true := by
    change ((2 : UInt8) &&& 2 == 2) = true
    decide
  simp [queueCommand, number, Command.unnumbered, hdata, hflag, hloose]

/-- The fragments of a packet take consecutive reliable numbers. -/
theorem queueFragments_eq (hdata : channel ≠ controlChannel)
    (hvalue : peer.channel? channel = some value) (fragments : List Fragment) :
    ∃ total, peer.queueFragments channel fragments = { peer with
      outgoingTotal := total
      channels := peer.channels.set channel.toNat { value with
        outgoingReliable := value.outgoingReliable + UInt32.ofNat fragments.length }
      reliable := peer.reliable ++ (fragments.mapIdx fun k fragment ↦
        (⟨channel, Command.acknowledgeFlag, value.outgoingReliable + 1 + UInt32.ofNat k,
          .sendFragment fragment⟩ : Command)).map ({ command := · }) } := by
  induction fragments generalizing peer value with
  | nil =>
    have hset : peer.channels.set channel.toNat value = peer.channels := by
      obtain ⟨hlt, hget⟩ := List.getElem?_eq_some_iff.mp hvalue
      rw [← hget, List.set_getElem_self]
    refine ⟨peer.outgoingTotal, ?_⟩
    simp [queueFragments, hset]
  | cons fragment rest ih =>
    have hlt := (List.getElem?_eq_some_iff.mp hvalue).1
    have hfirst := queueCommand_reliable hdata hvalue (.sendFragment fragment)
    have hnext : (peer.queueCommand (.unnumbered (.sendFragment fragment) channel
        Command.acknowledgeFlag)).channel? channel =
          some { value with outgoingReliable := value.outgoingReliable + 1 } := by
      rw [hfirst]
      exact List.getElem?_set_self hlt
    obtain ⟨total, hrest⟩ := ih hnext
    refine ⟨total, ?_⟩
    change (peer.queueCommand _).queueFragments channel rest = _
    rw [hrest, hfirst]
    simp only [List.set_set, Word.add_one_add_ofNat, List.mapIdx_cons, List.map_cons,
      List.append_assoc, List.singleton_append, List.length_cons]
    rfl

/-! ## Packets -/

/-- The unreliable commands that a packet is sent with, when the channel stands so and the
next group has this number. -/
def looseCommands (value : Channel) (group : UInt32) (submission : Submission) : List Command :=
  if submission.isReliable then []
  else if submission.packet.isUnsequenced then
    [⟨submission.channel, Command.unsequencedFlag, 0,
      .sendUnsequenced group submission.packet.payload⟩]
  else
    [submission.unreliableCommand value.outgoingReliable.toNat value.outgoingUnreliable.toNat]

/-- Sending a packet queues its commands, numbered from where the channel stands. -/
structure Sends (peer : Peer) (submission : Submission) (value : Channel) (after : Peer) :
    Prop where
  state : peer.state = .connected ∧ after.state = .connected
  settings : after.settings = peer.settings
  small : submission.packet.size < 4294967296
  acknowledgements : after.acknowledgements = peer.acknowledgements
  sent : after.sent = peer.sent
  channels : after.channels = peer.channels.set submission.channel.toNat { value with
    outgoingReliable := value.outgoingReliable + UInt32.ofNat
      (submission.reliableCommands value.outgoingReliable.toNat).length
    outgoingUnreliable := value.outgoingUnreliable + if submission.isUnreliable then 1 else 0 }
  reliable : after.reliable = peer.reliable ++
    (submission.reliableCommands value.outgoingReliable.toNat).map ({ command := · })
  unreliable : after.unreliable = peer.unreliable ++
    (looseCommands value peer.groups.next.1 submission).map ({ command := · })

/-- Queued commands are the commands that were queued. -/
theorem map_command (commands : List Command) :
    (commands.map fun command ↦ ({ command := command } : Outgoing)).map (·.command) =
      commands := by
  rw [List.map_map]
  exact List.map_id _

/-- The commands that await their acknowledgement or wait to be sent. -/
theorem Sends.mem_outstanding {submission : Submission} (h : Sends peer submission value after)
    {command : Command} : command ∈ after.outstanding ↔ command ∈ peer.outstanding ∨
      command ∈ submission.reliableCommands value.outgoingReliable.toNat := by
  rw [Peer.mem_outstanding, Peer.mem_outstanding, h.sent, h.reliable, List.map_append,
    List.mem_append, map_command, or_assoc]

theorem mem_looseCommands {group : UInt32} {submission : Submission} {command : Command}
    (h : command ∈ looseCommands value group submission) :
    (∃ number, command = ⟨submission.channel, Command.unsequencedFlag, 0,
      .sendUnsequenced number submission.packet.payload⟩) ∨
      submission.isUnreliable = true ∧ command = submission.unreliableCommand
        value.outgoingReliable.toNat value.outgoingUnreliable.toNat := by
  unfold looseCommands at h
  split at h
  · cases h
  · rename_i hreliable
    split at h
    · exact .inl ⟨group, List.mem_singleton.mp h⟩
    · rename_i hsequenced
      refine .inr ⟨?_, List.mem_singleton.mp h⟩
      rw [Submission.isUnreliable, Bool.eq_false_iff.mpr hreliable,
        Bool.eq_false_iff.mpr hsequenced]
      rfl

/-- A packet that is too large for one datagram is sent in fragments. -/
theorem queueFragments_sends (submission : Submission) (hconnected : peer.state = .connected)
    (hdata : submission.channel ≠ controlChannel)
    (hvalue : peer.channel? submission.channel = some value)
    (hsmall : submission.packet.size < 4294967296) (hrun : submission.isFragmented = true) :
    Sends peer submission value (peer.queueFragments submission.channel (Fragment.ofPayload
      (value.outgoingReliable + 1) submission.fragmentLength submission.packet.payload)) := by
  have hreliable : submission.isReliable = true := by
    rw [Submission.isReliable, hrun, Bool.true_or]
  have hunreliable := Submission.isUnreliable_of_isReliable hreliable
  have hnumber (k : Nat) : UInt32.ofNat (value.outgoingReliable.toNat + 1 + k) =
      value.outgoingReliable + 1 + UInt32.ofNat k := by
    rw [UInt32.ofNat_add, UInt32.ofNat_add, UInt32.ofNat_toNat]
    rfl
  have hstart : UInt32.ofNat (value.outgoingReliable.toNat + 1) = value.outgoingReliable + 1 := by
    rw [UInt32.ofNat_add, UInt32.ofNat_toNat]
    rfl
  obtain ⟨total, hafter⟩ := queueFragments_eq hdata hvalue (Fragment.ofPayload
    (value.outgoingReliable + 1) submission.fragmentLength submission.packet.payload)
  have hcommands : submission.reliableCommands value.outgoingReliable.toNat =
      (Fragment.ofPayload (value.outgoingReliable + 1) submission.fragmentLength
        submission.packet.payload).mapIdx fun k fragment ↦
          (⟨submission.channel, Command.acknowledgeFlag,
            value.outgoingReliable + 1 + UInt32.ofNat k, .sendFragment fragment⟩ : Command) := by
    simp only [Submission.reliableCommands, if_pos hrun, hstart, hnumber]
  have hloose : looseCommands value peer.groups.next.1 submission = [] := by
    rw [looseCommands, if_pos hreliable]
  rw [hafter]
  refine {
    state := ⟨hconnected, hconnected⟩
    settings := rfl
    small := hsmall
    acknowledgements := rfl
    sent := rfl
    channels := ?_
    reliable := ?_
    unreliable := ?_ }
  · rw [hcommands, List.length_mapIdx, hunreliable]
    simp
  · rw [hcommands]
  · rw [hloose]
    simp

/-- A packet that fits one datagram is sent whole. -/
theorem queueWhole_sends (submission : Submission) (hconnected : peer.state = .connected)
    (hdata : submission.channel ≠ controlChannel)
    (hvalue : peer.channel? submission.channel = some value)
    (hsmall : submission.packet.size < 4294967296) (hwhole : submission.isFragmented = false) :
    Sends peer submission value
      (peer.queueCommand (wholeCommand submission.channel submission.packet)) := by
  have hkind : submission.isReliable = submission.packet.isReliable := by
    rw [Submission.isReliable, hwhole, Bool.false_or]
  have hnumber : UInt32.ofNat (value.outgoingReliable.toNat + 1) = value.outgoingReliable + 1 := by
    rw [UInt32.ofNat_add, UInt32.ofNat_toNat]
    rfl
  have hsame : peer.channels.set submission.channel.toNat value = peer.channels := by
    obtain ⟨hlt, hget⟩ := List.getElem?_eq_some_iff.mp hvalue
    rw [← hget, List.set_getElem_self]
  unfold wholeCommand
  split
  · rename_i hreliable
    rw [queueCommand_reliable hdata hvalue]
    refine {
      state := ⟨hconnected, hconnected⟩
      settings := rfl
      small := hsmall
      acknowledgements := rfl
      sent := rfl
      channels := ?_
      reliable := ?_
      unreliable := ?_ } <;>
    simp [Submission.reliableCommands, looseCommands, Submission.isUnreliable, hwhole, hkind,
      hreliable, hnumber]
  · rename_i hunreliable
    split
    · rename_i hunsequenced
      rw [queueCommand_unsequenced hdata]
      refine {
        state := ⟨hconnected, hconnected⟩
        settings := rfl
        small := hsmall
        acknowledgements := rfl
        sent := rfl
        channels := ?_
        reliable := ?_
        unreliable := ?_ } <;>
      simp [Submission.reliableCommands, looseCommands, Submission.isUnreliable, hwhole, hkind,
        hunreliable, hunsequenced, hsame]
    · rename_i hsequenced
      rw [queueCommand_unreliable hdata hvalue]
      refine {
        state := ⟨hconnected, hconnected⟩
        settings := rfl
        small := hsmall
        acknowledgements := rfl
        sent := rfl
        channels := ?_
        reliable := ?_
        unreliable := ?_ } <;>
      simp [Submission.reliableCommands, looseCommands, Submission.isUnreliable,
        Submission.unreliableCommand, hwhole, hkind, hunreliable, hsequenced]

theorem fragmentLength_pos (peer : Peer) : 0 < peer.fragmentLength := Nat.le_max_left _ _

theorem wholeCommand_fields (channel : UInt8) (packet : Packet) :
    (wholeCommand channel packet).channel = channel ∧
      (wholeCommand channel packet).tag ≠ .sendFragment ∧
      (wholeCommand channel packet).body.payload? = some packet.payload ∧
      (wholeCommand channel packet).requiresAcknowledgement = packet.isReliable := by
  unfold wholeCommand
  split
  · rename_i hreliable
    exact ⟨rfl, nofun, rfl, (requiresAcknowledgement_of_flags rfl).trans hreliable.symm⟩
  · rename_i hreliable
    rw [Bool.not_eq_true] at hreliable
    split
    · exact ⟨rfl, nofun, rfl, (requiresAcknowledgement_of_unsequenced rfl).trans hreliable.symm⟩
    · exact ⟨rfl, nofun, rfl, (requiresAcknowledgement_of_plain rfl).trans hreliable.symm⟩

/-- What becomes of a packet that is not refused. -/
theorem send_eq_ok_iff {packet : Packet} : peer.send channel packet = .ok after ↔
    peer.state = .connected ∧ ∃ value, peer.channel? channel = some value ∧
      packet.size ≤ peer.settings.packetSizeLimit ∧ packet.size ≤ Word.maximum ∧
      after = if peer.fragmentLength < packet.size then
          peer.queueFragments channel (Fragment.ofPayload (value.outgoingReliable + 1)
            peer.fragmentLength packet.payload)
        else peer.queueCommand (wholeCommand channel packet) := by
  unfold send
  by_cases hstate : peer.state = .connected
  · rw [if_neg (not_not_intro hstate)]
    cases hvalue : peer.channel? channel with
    | none => simp [hstate]
    | some value =>
      simp only [hstate, true_and, Option.some.injEq, exists_eq_left']
      by_cases hsize : peer.settings.packetSizeLimit < packet.size ∨ Word.maximum < packet.size
      · simp only [if_pos hsize, reduceCtorEq, false_iff, not_and]
        omega
      · rw [if_neg hsize]
        have hfits : packet.size ≤ peer.settings.packetSizeLimit ∧
            packet.size ≤ Word.maximum := by omega
        split <;> simp [hfits, eq_comm]
  · simp [hstate]

theorem send_enqueues {packet : Packet} (h : peer.send channel packet = .ok after) :
    Enqueues peer after := by
  obtain ⟨-, value, -, -, -, rfl⟩ := send_eq_ok_iff.mp h
  split
  · exact peer.queueFragments_enqueues ..
  · exact peer.queueCommand_enqueues _

/-- Sending needs a connection that stands and the channel, and adds no channel. -/
theorem send_frame {packet : Packet} (h : peer.send channel packet = .ok after) :
    peer.state = .connected ∧ channel.toNat < peer.channels.length ∧
      after.channels.length = peer.channels.length ∧ after.settings = peer.settings := by
  obtain ⟨hconnected, value, hvalue, -⟩ := send_eq_ok_iff.mp h
  exact ⟨hconnected, (List.getElem?_eq_some_iff.mp hvalue).1, (send_enqueues h).channels,
    (send_enqueues h).settings⟩

theorem send_eq_ok {packet : Packet} (h : peer.send channel packet = .ok after)
    (hdata : channel ≠ controlChannel) :
    ∃ value, peer.channel? channel = some value ∧ ∀ commands,
      Sends peer ⟨channel, packet, peer.fragmentLength, commands⟩ value after := by
  obtain ⟨hconnected, value, hvalue, -, hmaximum, rfl⟩ := send_eq_ok_iff.mp h
  have hsmall : packet.size < 4294967296 := Nat.lt_succ_of_le hmaximum
  refine ⟨value, hvalue, fun commands ↦ ?_⟩
  split <;> rename_i hrun
  · exact queueFragments_sends ⟨channel, packet, _, commands⟩ hconnected hdata hvalue hsmall
      (decide_eq_true hrun)
  · exact queueWhole_sends ⟨channel, packet, _, commands⟩ hconnected hdata hvalue hsmall
      (decide_eq_false hrun)

end Peer

end ReliableDatagram
