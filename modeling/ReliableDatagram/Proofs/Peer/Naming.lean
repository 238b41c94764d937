import ReliableDatagram.Proofs.Peer.Flow
import ReliableDatagram.Proofs.Peer.Operations

/-!
# The names of outstanding commands

An acknowledgement names a command by its channel and its number. A peer gives each number of
a channel out once until the counter is set back, which happens only when the queues are
emptied; so, while the numbers of a channel suffice, no two outstanding commands have the same
name, wherever they move between the queues. Every function of a peer is shown to take
commands out, to give numbers out, or to empty the queues.
-/

namespace ReliableDatagram

namespace Command

/-- What an acknowledgement names a command by: its channel and its number. -/
def name (command : Command) : UInt8 × UInt32 := (command.channel, command.sequence)

def takesNumber (command : Command) : Bool :=
  command.channel == controlChannel || command.requiresAcknowledgement

end Command

namespace Peer

variable {peer middle after : Peer} {removed more : List Command}

def lastNumber (peer : Peer) (channel : UInt8) : UInt32 :=
  if channel = controlChannel then peer.controlSequence
  else match peer.channel? channel with
    | none => 0
    | some value => value.outgoingReliable

theorem lastNumber_congr (hcontrol : after.controlSequence = peer.controlSequence)
    (hchannels : after.channels.map (·.outgoingReliable) =
      peer.channels.map (·.outgoingReliable)) (channel : UInt8) :
    after.lastNumber channel = peer.lastNumber channel := by
  have hget := congrArg (·[channel.toNat]?) hchannels
  simp only [List.getElem?_map] at hget
  unfold lastNumber channel?
  rw [hcontrol]
  split
  · rfl
  · revert hget
    cases after.channels[channel.toNat]? <;> cases peer.channels[channel.toNat]? <;> simp

/-- Every outstanding command has a name of its own, and its number was given out. -/
structure Named (peer : Peer) : Prop where
  given : ∀ command ∈ peer.outstanding, command.sequence ≤ peer.lastNumber command.channel
  distinct : (peer.outstanding.map Command.name).Nodup

theorem Named.of_nil (h : peer.outstanding = []) : Named peer where
  given := by simp [h]
  distinct := by simp [h]

/-! ## Taking commands out -/

/-- The commands have been taken out, and the others are still outstanding; no number was given
out. -/
structure Loses (peer : Peer) (removed : List Command) (after : Peer) : Prop where
  outstanding : peer.outstanding.Perm (removed ++ after.outstanding)
  numbers : ∀ channel, after.lastNumber channel = peer.lastNumber channel

theorem Loses.refl (peer : Peer) : Loses peer [] peer where
  outstanding := List.Perm.refl _
  numbers _ := rfl

theorem Loses.trans (h : Loses peer removed middle) (hmore : Loses middle more after) :
    Loses peer (removed ++ more) after where
  outstanding := by
    rw [List.append_assoc]
    exact h.outstanding.trans (hmore.outstanding.append_left removed)
  numbers channel := (hmore.numbers channel).trans (h.numbers channel)

/-- What is outstanding afterwards was outstanding before. -/
theorem Loses.subset (h : Loses peer removed after) : after.outstanding ⊆ peer.outstanding :=
  fun _ hcommand ↦ h.outstanding.symm.subset (List.mem_append_right _ hcommand)

/-- What was outstanding is still, unless it has been taken out. -/
theorem Loses.mem_or_mem (h : Loses peer removed after) {command : Command}
    (hcommand : command ∈ peer.outstanding) : command ∈ removed ∨ command ∈ after.outstanding :=
  List.mem_append.mp (h.outstanding.subset hcommand)

theorem Loses.named (h : Loses peer removed after) (hnamed : Named peer) : Named after where
  given command hcommand := by
    rw [h.numbers]
    exact hnamed.given command (h.subset hcommand)
  distinct := by
    have hnames := hnamed.distinct
    rw [(h.outstanding.map Command.name).nodup_iff, List.map_append] at hnames
    exact hnames.of_append_right

/-! ## Queueing commands -/

structure Queues (peer : Peer) (command : Command) (after : Peer) : Prop where
  outstanding : after.outstanding = peer.outstanding ++
    if command.requiresAcknowledgement then
      [{ command with sequence := peer.lastNumber command.channel + 1 }]
    else []
  numbers : ∀ channel, after.lastNumber channel =
    peer.lastNumber channel + if channel = command.channel ∧ command.takesNumber then 1 else 0
  channels : after.channels.length = peer.channels.length

/-- Setting a counter changes the last number of its channel only. -/
theorem lastNumber_setChannel {channel : UInt8} {value : Channel} (hdata : channel ≠ controlChannel)
    (hvalue : channel.toNat < peer.channels.length) (other : UInt8) :
    (peer.setChannel channel value).lastNumber other =
      if other = channel then value.outgoingReliable else peer.lastNumber other := by
  unfold lastNumber channel? setChannel
  by_cases hsame : other = channel
  · rw [hsame, if_neg hdata, if_pos rfl]
    simp only [List.getElem?_set_self hvalue]
  · have hnat : channel.toNat ≠ other.toNat := fun h ↦ hsame (UInt8.toNat_inj.mp h).symm
    rw [if_neg hsame]
    simp only [List.getElem?_set_ne hnat]

theorem number_numbers {command : Command}
    (hchannel : command.channel = controlChannel ∨ command.channel.toNat < peer.channels.length) :
    (∀ channel, (peer.number command).2.lastNumber channel = peer.lastNumber channel +
        if channel = command.channel ∧ command.takesNumber = true then 1 else 0) ∧
      (command.requiresAcknowledgement = true → (peer.number command).1 =
        { command with sequence := peer.lastNumber command.channel + 1 }) := by
  unfold number Command.takesNumber
  split
  · rename_i hcontrol
    refine ⟨fun channel ↦ ?_, fun _ ↦ ?_⟩
    · by_cases hsame : channel = controlChannel
      · simp [lastNumber, hcontrol, hsame]
      · simp [lastNumber, channel?, hcontrol, hsame]
    · simp [lastNumber, hcontrol]
  · rename_i hdata
    have hlt := hchannel.resolve_left hdata
    obtain ⟨value, hvalue⟩ : ∃ value, peer.channel? command.channel = some value :=
      ⟨_, List.getElem?_eq_getElem hlt⟩
    have hlast : peer.lastNumber command.channel = value.outgoingReliable := by
      rw [lastNumber, if_neg hdata, hvalue]
    split
    · rename_i hasks
      rw [hvalue]
      refine ⟨fun channel ↦ ?_, fun _ ↦ by rw [hlast]⟩
      dsimp only
      rw [lastNumber_setChannel hdata hlt]
      by_cases hsame : channel = command.channel
      · simp [hsame, hasks, hlast]
      · simp [hsame]
    · rename_i hsilent
      have hnone :
          (command.channel == controlChannel || command.requiresAcknowledgement) = false := by
        simp [hdata, hsilent]
      simp only [hnone, Bool.false_eq_true, and_false, if_false, UInt32.add_zero]
      refine ⟨fun channel ↦ ?_, fun hasks ↦ absurd hasks hsilent⟩
      split
      · rfl
      · rw [hvalue]
        dsimp only
        rw [lastNumber_setChannel hdata hlt]
        split
        · rename_i hsame
          rw [hsame, hlast]
        · rfl

theorem queueCommand_numbers {command : Command}
    (hchannel : command.channel = controlChannel ∨ command.channel.toNat < peer.channels.length) :
    Queues peer command (peer.queueCommand command) := by
  let counting := { peer with
    outgoingTotal := peer.outgoingTotal + UInt32.ofNat command.encodedLength }
  have hcounting : command.channel = controlChannel ∨
      command.channel.toNat < counting.channels.length := hchannel
  have hnumbers := number_numbers hcounting
  have hqueues := number_frame { peer with
    outgoingTotal := peer.outgoingTotal + UInt32.ofNat command.encodedLength } command
  obtain ⟨numbered, counted, hresult⟩ : ∃ numbered counted, Peer.number { peer with
      outgoingTotal := peer.outgoingTotal + UInt32.ofNat command.encodedLength } command =
        (numbered, counted) := ⟨_, _, rfl⟩
  rw [hresult] at hnumbers hqueues
  dsimp only at hnumbers hqueues
  obtain ⟨hcounted, hnumbered⟩ := hnumbers
  obtain ⟨-, hflags, hsent, hreliable, -, -⟩ := hqueues
  have hasks : numbered.requiresAcknowledgement = command.requiresAcknowledgement := by
    rw [Command.requiresAcknowledgement, hflags, Command.requiresAcknowledgement]
  have hafter : peer.queueCommand command = if command.requiresAcknowledgement = true then
      { counted with reliable := counted.reliable ++ [{ command := numbered }] }
    else { counted with unreliable := counted.unreliable ++ [{ command := numbered }] } := by
    unfold queueCommand
    dsimp only
    rw [hresult, hasks]
  have hchannels := (peer.queueCommand_enqueues command).channels
  refine { outstanding := ?_, numbers := ?_, channels := hchannels }
  · rw [hafter]
    split
    · rename_i hreliably
      simp only [Peer.outstanding, hsent, hreliable, hnumbered hreliably, List.map_append,
        List.map_cons, List.map_nil, List.append_assoc]
      rfl
    · simp only [Peer.outstanding, hsent, hreliable, List.append_nil]
  · rw [hafter]
    split <;> exact hcounted

/-- The next number of a channel is greater than those given out before. -/
theorem Queues.named {command : Command} (h : Queues peer command after) (hnamed : Named peer)
    (hroom : (peer.lastNumber command.channel).toNat + 1 < 4294967296) : Named after := by
  have hnext : (peer.lastNumber command.channel + 1).toNat =
      (peer.lastNumber command.channel).toNat + 1 := by
    rw [UInt32.toNat_add]
    exact Nat.mod_eq_of_lt hroom
  have hgrown (channel : UInt8) : peer.lastNumber channel ≤ after.lastNumber channel := by
    rw [h.numbers, UInt32.le_iff_toNat_le]
    split
    · rename_i htaken
      rw [htaken.1, hnext]
      exact Nat.le_succ _
    · exact Nat.le_of_eq (congrArg UInt32.toNat (UInt32.add_zero _).symm)
  have hold : ∀ other ∈ peer.outstanding, other.sequence ≤ after.lastNumber other.channel :=
    fun other hother ↦ UInt32.le_trans (hnamed.given other hother) (hgrown other.channel)
  cases hasks : command.requiresAcknowledgement with
  | false =>
    have houtstanding := h.outstanding
    rw [hasks, if_neg Bool.false_ne_true, List.append_nil] at houtstanding
    refine { given := ?_, distinct := ?_ } <;> rw [houtstanding]
    · exact hold
    · exact hnamed.distinct
  | true =>
    have houtstanding := h.outstanding
    rw [hasks, if_pos rfl] at houtstanding
    refine { given := ?_, distinct := ?_ } <;> rw [houtstanding]
    · intro other hother
      rcases List.mem_append.mp hother with hother | hother
      · exact hold other hother
      · rw [List.mem_singleton.mp hother, h.numbers, if_pos]
        · exact UInt32.le_refl _
        · exact ⟨rfl, by rw [Command.takesNumber, hasks, Bool.or_true]⟩
    · rw [List.map_append, List.nodup_append']
      refine ⟨hnamed.distinct, List.nodup_singleton _, ?_⟩
      rw [List.map_singleton, List.disjoint_singleton]
      intro hname
      obtain ⟨other, hother, hsame⟩ := List.mem_map.mp hname
      obtain ⟨hchannel, hsequence⟩ := Prod.mk.inj hsame
      have hgiven := hnamed.given other hother
      rw [hchannel, hsequence, UInt32.le_iff_toNat_le] at hgiven
      dsimp only at hgiven
      omega

/-! ## Giving out numbers -/

/-- So many numbers of the channel have been given out, and nothing outstanding was lost. -/
structure Spends (peer : Peer) (channel : UInt8) (count : Nat) (after : Peer) : Prop where
  small : count < 4294967296
  numbers : ∀ other, after.lastNumber other =
    peer.lastNumber other + if other = channel then UInt32.ofNat count else 0
  kept : peer.outstanding ⊆ after.outstanding
  named : Named peer → (peer.lastNumber channel).toNat + count < 4294967296 → Named after

variable {channel : UInt8} {count : Nat}

theorem Loses.spends (h : Loses peer [] after) (channel : UInt8) : Spends peer channel 0 after where
  small := by decide
  numbers other := by
    rw [h.numbers]
    split <;> exact (UInt32.add_zero _).symm
  kept := h.outstanding.subset
  named hnamed _ := h.named hnamed

theorem Spends.loses (h : Spends peer channel count middle) (hmore : Loses middle [] after) :
    Spends peer channel count after where
  small := h.small
  numbers other := by rw [hmore.numbers, h.numbers]
  kept := List.Subset.trans h.kept hmore.outstanding.subset
  named hnamed hroom := hmore.named (h.named hnamed hroom)

theorem Loses.then_spends (h : Loses peer [] middle) (hmore : Spends middle channel count after) :
    Spends peer channel count after where
  small := hmore.small
  numbers other := by rw [hmore.numbers, h.numbers]
  kept := List.Subset.trans h.outstanding.subset hmore.kept
  named hnamed hroom := hmore.named (h.named hnamed) (by rwa [h.numbers])

/-- A reliable command, or one on the control channel, takes one number of its channel. -/
theorem Queues.spends_one {command : Command} (h : Queues peer command after)
    (htakes : command.takesNumber = true) : Spends peer command.channel 1 after where
  small := by decide
  numbers other := by
    rw [h.numbers]
    simp [htakes]
  kept := by
    rw [h.outstanding]
    exact List.subset_append_left _ _
  named hnamed hroom := h.named hnamed hroom

/-- Any other command takes none. -/
theorem Queues.loses {command : Command} (h : Queues peer command after)
    (htakes : command.takesNumber = false) : Loses peer [] after where
  outstanding := by
    rw [Command.takesNumber, Bool.or_eq_false_iff] at htakes
    rw [h.outstanding, htakes.2, if_neg Bool.false_ne_true, List.append_nil, List.nil_append]
  numbers other := by
    rw [h.numbers]
    simp [htakes]

theorem Queues.spends {command : Command} (h : Queues peer command after) :
    ∃ count, Spends peer command.channel count after := by
  cases htakes : command.takesNumber with
  | false => exact ⟨0, (h.loses htakes).spends _⟩
  | true => exact ⟨1, h.spends_one htakes⟩

theorem queueControl_spends (peer : Peer) (body : Body) :
    Spends peer controlChannel 1 (peer.queueControl body) := by
  have hqueues : Queues peer (.unnumbered body controlChannel Command.acknowledgeFlag)
      (peer.queueControl body) := queueCommand_numbers (.inl rfl)
  exact hqueues.spends_one rfl

theorem ping_spends (peer : Peer) : ∃ count, Spends peer controlChannel count peer.ping := by
  unfold ping
  split
  · exact ⟨1, peer.queueControl_spends _⟩
  · exact ⟨0, (Loses.refl peer).spends _⟩

/-- Each fragment takes a number of its channel. -/
theorem queueFragments_spends (fragments : List Fragment)
    (hchannel : channel = controlChannel ∨ channel.toNat < peer.channels.length)
    (hsmall : fragments.length < 4294967296) :
    Spends peer channel fragments.length (peer.queueFragments channel fragments) := by
  induction fragments generalizing peer with
  | nil => exact (Loses.refl peer).spends channel
  | cons fragment rest ih =>
    have hqueues : Queues peer (.unnumbered (.sendFragment fragment) channel
        Command.acknowledgeFlag) _ := queueCommand_numbers hchannel
    have htakes : (Command.unnumbered (.sendFragment fragment) channel
        Command.acknowledgeFlag).takesNumber = true := by
      rw [Command.takesNumber, requiresAcknowledgement_of_flags rfl, Bool.or_true]
    have hfirst : Spends peer channel 1 _ := hqueues.spends_one htakes
    rw [List.length_cons] at hsmall ⊢
    have hkept : channel = controlChannel ∨ channel.toNat < (peer.queueCommand
        (.unnumbered (.sendFragment fragment) channel
          Command.acknowledgeFlag)).channels.length := by
      rwa [hqueues.channels]
    have hrest := ih hkept (by omega)
    change Spends peer channel _ ((peer.queueCommand _).queueFragments channel rest)
    refine {
      small := hsmall
      numbers := fun other ↦ ?_
      kept := List.Subset.trans hfirst.kept hrest.kept
      named := fun hnamed hroom ↦ hrest.named (hfirst.named hnamed (by omega)) ?_ }
    · rw [hrest.numbers, hfirst.numbers]
      split
      · rw [UInt32.add_assoc, Nat.add_comm, UInt32.ofNat_add]
      · rw [UInt32.add_zero]
    · rw [hfirst.numbers, if_pos rfl, UInt32.toNat_add]
      have hle := Nat.mod_le ((peer.lastNumber channel).toNat + UInt32.toNat 1) (2 ^ 32)
      change _ + rest.length < _
      have hone : UInt32.toNat (UInt32.ofNat 1) = 1 := rfl
      rw [hone]
      omega

theorem send_spends {packet : Packet} (h : peer.send channel packet = .ok after) :
    ∃ count, Spends peer channel count after := by
  obtain ⟨-, value, hvalue, -, hmaximum, rfl⟩ := send_eq_ok_iff.mp h
  have hlt := (List.getElem?_eq_some_iff.mp hvalue).1
  split
  · have hpieces := Bytes.length_chunks_le peer.fragmentLength_pos packet.payload
    refine ⟨_, queueFragments_spends _ (.inr hlt) ?_⟩
    rw [Fragment.length_ofPayload]
    exact Nat.lt_of_le_of_lt hpieces (Nat.lt_succ_of_le hmaximum)
  · have hchannel := (wholeCommand_fields channel packet).1
    have hqueues : Queues peer (wholeCommand channel packet) _ :=
      queueCommand_numbers (.inr (by rwa [hchannel]))
    have hspends := hqueues.spends
    rwa [hchannel] at hspends

/-! ## Composing -/

theorem sendAcknowledgements_loses (peer : Peer) (draft : Draft) (waiting : List Acknowledgement) :
    Loses peer [] (peer.sendAcknowledgements draft waiting).2 := by
  obtain ⟨_, _, _, -, -, -, hafter⟩ := peer.sendAcknowledgements_eq draft waiting
  rw [hafter]
  exact { Loses.refl peer with }

theorem sendReliable_loses (peer : Peer) (draft : Draft) (now : Stamp) :
    Loses peer [] (peer.sendReliable draft now peer.reliable).2 := by
  obtain ⟨_, -, hdraws⟩ := peer.sendReliable_draws draft now
  obtain ⟨_, _, -, -, _, _, _, hafter⟩ := peer.sendReliable_eq draft now peer.reliable
  refine { outstanding := hdraws.outstanding.symm, numbers := fun channel ↦ ?_ }
  rw [hafter]
  rfl

theorem sendUnreliable_loses (peer : Peer) (draft : Draft) (queue : List Outgoing) :
    Loses peer [] (peer.sendUnreliable draft queue).2 := by
  obtain ⟨_, _, _, _, -, -, -, hafter⟩ := peer.sendUnreliable_eq draft queue
  rw [hafter]
  exact { Loses.refl peer with }

theorem checkTimeouts_loses {now : Stamp} (h : peer.checkTimeouts now = (false, after)) :
    Loses peer [] after := by
  refine { outstanding := (checkTimeouts_draws h).outstanding.symm, numbers := fun channel ↦ ?_ }
  obtain ⟨_, _, _, _, rfl⟩ := checkTimeouts_eq h
  rfl

/-- Composing takes a number for the ping of a silent connection, if for anything. -/
theorem fillReliable_spends (peer : Peer) (draft : Draft) (now : Stamp) :
    ∃ count, Spends peer controlChannel count (peer.fillReliable draft now).2 := by
  unfold fillReliable
  split
  · exact ⟨0, (peer.sendReliable_loses draft now).spends _⟩
  · split
    · obtain ⟨count, hspends⟩ := peer.ping_spends
      exact ⟨count, hspends.loses (peer.ping.sendReliable_loses draft now)⟩
    · exact ⟨0, (Loses.refl peer).spends _⟩

theorem fill_spends {now : Stamp} {check : Bool} {draft : Draft}
    (h : peer.fill now check = (some draft, after)) :
    ∃ count, Spends peer controlChannel count after := by
  have hacknowledged := peer.sendAcknowledgements_loses peer.draft peer.acknowledgements
  have hloads := peer.fill_loads now check
  rw [h] at hloads
  generalize peer.sendAcknowledgements peer.draft peer.acknowledgements = acknowledged at *
  obtain ⟨first, middle⟩ := acknowledged
  cases hloads with
  | @roomy kept _ hlooks =>
    have hkept : Loses middle [] kept := by
      rcases hlooks with ⟨-, rfl⟩ | ⟨-, hlooked⟩
      · exact .refl _
      · exact checkTimeouts_loses hlooked
    obtain ⟨count, hspends⟩ := kept.fillReliable_spends first now
    exact ⟨count, ((hacknowledged.trans hkept).then_spends hspends).loses
      (sendUnreliable_loses ..)⟩
  | full => exact ⟨0, (hacknowledged.trans (sendUnreliable_loses ..)).spends _⟩

theorem compose_spends (peer : Peer) (now : Stamp) (check : Bool) :
    ((peer.compose now check).1 = .ok .timedOut ∧ (peer.compose now check).2 = peer.reset) ∨
      (peer.compose now check).1 ≠ .ok .timedOut ∧
        ∃ count, Spends peer controlChannel count (peer.compose now check).2 := by
  rcases peer.compose_cases now check with hover | ⟨hgoes, -⟩
  · exact .inl hover
  · refine .inr ⟨hgoes, ?_⟩
    have hyields := peer.compose_yields now check
    generalize peer.compose now check = composed at hgoes hyields
    obtain ⟨result, last⟩ := composed
    cases hyields with
    | idle => exact ⟨0, (Loses.refl _).spends _⟩
    | gaveUp => exact absurd rfl hgoes
    | nothing _ hfill => exact fill_spends hfill
    | @failed _ after _ _ _ _ hfill | @datagram _ after _ _ _ _ hfill =>
      obtain ⟨count, hspends⟩ := fill_spends hfill
      exact ⟨count, hspends.loses { Loses.refl after with }⟩

/-! ## Handling -/

/-- The first element that satisfies a condition and the list without it. -/
theorem perm_cons_eraseP {α : Type} {p : α → Bool} {l : List α} {a : α} (h : l.find? p = some a) :
    l.Perm (a :: l.eraseP p) := by
  obtain ⟨hp, before, rest, rfl, hbefore⟩ := List.find?_eq_some_iff_append.mp h
  have hnone : ∀ b ∈ before, ¬ p b = true := by simpa using hbefore
  rw [List.eraseP_append_right _ hnone, List.eraseP_cons_of_pos hp]
  exact List.perm_middle

/-- An acknowledgement takes out one command that it names, or none. -/
theorem removeSent_loses (peer : Peer) (sequence : UInt32) (channel : UInt8) :
    ∃ removed, Loses peer removed (peer.removeSent sequence channel).2 ∧
      (peer.removeSent sequence channel).1 = (removed.head?).map (·.tag) ∧
      removed.length ≤ 1 ∧ ∀ command ∈ removed, command.name = (channel, sequence) := by
  have hone (outgoing : Outgoing) (hnamed : outgoing.isNamed sequence channel = true) :
      [outgoing.command].length ≤ 1 ∧
        ∀ command ∈ [outgoing.command], command.name = (channel, sequence) := by
    refine ⟨Nat.le_refl 1, fun command hcommand ↦ ?_⟩
    obtain ⟨hsequence, hchannel⟩ := eq_of_isNamed hnamed
    rw [List.mem_singleton.mp hcommand, Command.name, hsequence, hchannel]
  unfold removeSent
  split
  · rename_i outgoing hfound
    obtain ⟨_, hrefreshed⟩ := refreshTimeout_eq _
    have hperm := ((perm_cons_eraseP hfound).map (·.command)).append_right
      (peer.reliable.map (·.command))
    have hnamed := List.find?_some hfound
    refine ⟨[outgoing.command], ?_, rfl, hone outgoing hnamed⟩
    refine { outstanding := ?_, numbers := fun channel ↦ by rw [hrefreshed]; rfl }
    rw [hrefreshed]
    simpa [Peer.outstanding] using hperm
  · dsimp only
    split
    · rename_i outgoing hfound
      have hnamed := List.find?_some hfound
      rw [Bool.and_eq_true] at hnamed
      have hperm := ((perm_cons_eraseP hfound).map (·.command)).append_left
        (peer.sent.map (·.command))
      refine ⟨[outgoing.command], ?_, rfl, hone outgoing hnamed.2⟩
      refine { outstanding := ?_, numbers := fun channel ↦ rfl }
      simp only [Peer.outstanding, List.map_append, List.singleton_append]
      exact hperm.trans List.perm_middle
    · exact ⟨[], .refl peer, rfl, Nat.zero_le _, by simp⟩

/-- What a received command does to what is outstanding. -/
inductive Relieves (peer : Peer) (command : Command) : Option PeerEvent → Peer → Prop where
  /-- Nothing is taken out, or the command that an acknowledgement names; the state tells whether
  this was the grant of the connection or the request to leave it. -/
  | loses {event : Option PeerEvent} {after : Peer} {removed : List Command}
      (hloses : Loses peer removed after) (hlength : removed.length ≤ 1)
      (hremoved : ∀ other ∈ removed, ∃ sentTime, other.channel = command.channel ∧
        command.body = .acknowledge other.sequence sentTime ∧
        (other.tag = .verifyConnect → after.state ≠ .acknowledgingConnect) ∧
        (other.tag = .disconnect → after.state ≠ .disconnecting)) :
      Relieves peer command event after
  /-- The request for the connection is taken out when it is granted. -/
  | granted {event : Option PeerEvent} {after : Peer} {removed : List Command}
      (htag : command.tag = .verifyConnect) (hloses : Loses peer removed after)
      (hstate : after.state = .connected) : Relieves peer command event after
  /-- The request to leave is acknowledged, or the other end leaves: the queues are emptied. -/
  | cleared {event : Option PeerEvent} {after : Peer}
      (hcause : (event = some .disconnected ∧ ∃ farewell ∈ peer.outstanding, ∃ sentTime,
          farewell.tag = .disconnect ∧ farewell.channel = command.channel ∧
            command.body = .acknowledge farewell.sequence sentTime) ∨ command.tag = .disconnect)
      (houtstanding : after.outstanding = [])
      (hstate : after.state ≠ .acknowledgingConnect ∧ after.state ≠ .disconnecting)
      (hnumbers : ∀ channel, after.lastNumber channel = peer.lastNumber channel ∨
        after.lastNumber channel = 0) : Relieves peer command event after

variable {command : Command} {context : Context} {event : Option PeerEvent}

theorem Relieves.refl (peer : Peer) (command : Command) : Relieves peer command event peer :=
  .loses (.refl peer) (Nat.zero_le _) (by simp)

theorem lastNumber_reset (peer : Peer) (channel : UInt8) : peer.reset.lastNumber channel = 0 := by
  unfold lastNumber channel?
  split <;> rfl

theorem lastNumber_clearQueues (peer : Peer) (channel : UInt8) :
    peer.clearQueues.lastNumber channel =
      if channel = controlChannel then peer.controlSequence else 0 := by
  unfold lastNumber channel? clearQueues
  split
  · rfl
  · simp only [List.getElem?_map]
    cases peer.channels[channel.toNat]? <;> rfl

theorem TakesAcknowledgement.relieves {sequence : UInt32} {sentTime : Stamp}
    (h : peer.TakesAcknowledgement command.channel sequence sentTime context event after)
    (hbody : command.body = .acknowledge sequence sentTime) :
    Relieves peer command event after := by
  obtain ⟨removed, hloses, hkind, hlength, hnamed⟩ :=
    (peer.heard sentTime context).removeSent_loses sequence command.channel
  have hfrom : Loses peer [] (peer.heard sentTime context) := { Loses.refl peer with }
  have hbrief {after : Peer} {event : Option PeerEvent}
      (hafter : Loses (peer.heard sentTime context) removed after)
      (hgrant : after.state = .acknowledgingConnect →
        (removed.head?).map (·.tag) ≠ some .verifyConnect)
      (hfarewell : after.state = .disconnecting →
        (removed.head?).map (·.tag) ≠ some .disconnect) : Relieves peer command event after := by
    have hall : Loses peer removed after := hfrom.trans hafter
    refine .loses hall hlength fun other hother ↦ ?_
    obtain ⟨hchannel, rfl⟩ := Prod.mk.inj (hnamed other hother)
    have hhead : (removed.head?).map (·.tag) = some other.tag := by
      match removed, hlength, hother with
      | [_], _, hother => rw [List.mem_singleton.mp hother]; rfl
    rw [hhead] at hgrant hfarewell
    exact ⟨sentTime, hchannel, hbody, fun htag hstate ↦ hgrant hstate (congrArg some htag),
      fun htag hstate ↦ hfarewell hstate (congrArg some htag)⟩
  cases h with
  | early => exact .refl peer command
  | confirmed => exact hbrief { hloses with } (fun h ↦ by cases h) (fun h ↦ by cases h)
  | departed _ _ hfarewell =>
    refine .cleared (.inl ⟨rfl, ?_⟩) rfl ⟨fun h ↦ (by cases h), fun h ↦ by cases h⟩
      fun channel ↦ .inr (lastNumber_reset _ channel)
    obtain ⟨farewell, hhead, htag⟩ := Option.map_eq_some_iff.mp (hkind.symm.trans hfarewell)
    have hmem := List.mem_of_head? hhead
    obtain ⟨hchannel, rfl⟩ := Prod.mk.inj (hnamed farewell hmem)
    refine ⟨farewell, ?_, sentTime, htag, hchannel, hbody⟩
    exact hfrom.outstanding.symm.subset (hloses.outstanding.symm.subset
      (List.mem_append_left _ hmem))
  | noted _ hgrant hfarewell =>
    rw [hkind] at hgrant hfarewell
    rw [← peer.removeSent_heard_state sentTime context sequence command.channel] at hgrant hfarewell
    exact hbrief hloses hgrant hfarewell

/-- The request for the connection is taken out, and with it at most another command. -/
theorem removeConnect_loses (peer : Peer) : ∃ removed, Loses peer removed peer.removeConnect := by
  have hfilter (other : Peer) : Loses other
      ((other.reliable.filter (·.command.tag == .connect)).map (·.command))
      { other with reliable := other.reliable.filter (·.command.tag != .connect) } := by
    refine { outstanding := ?_, numbers := fun _ ↦ rfl }
    have hsplit := ((List.filter_append_perm (·.command.tag == .connect) other.reliable).map
      (·.command)).symm
    rw [List.map_append] at hsplit
    simp only [Peer.outstanding, List.map_append]
    refine (hsplit.append_left _).trans ?_
    rw [← List.append_assoc, ← List.append_assoc]
    exact List.perm_append_comm.append_right _
  unfold removeConnect
  split
  · obtain ⟨removed, hloses, -⟩ := peer.removeSent_loses _ controlChannel
    exact ⟨_, hloses.trans (hfilter _)⟩
  · exact ⟨_, hfilter peer⟩

theorem TakesGrant.relieves {answer : Handshake} {handled : Handled}
    (h : peer.TakesGrant answer handled) (hbody : command.body = .verifyConnect answer) :
    Relieves peer command handled.event handled.peer := by
  cases h with
  | unasked => exact .refl peer command
  | refused =>
    have hloses : Loses peer [] { peer with state := .zombie } := { Loses.refl peer with }
    exact .loses hloses (Nat.zero_le _) (by simp)
  | granted =>
    obtain ⟨removed, hloses⟩ := peer.removeConnect_loses
    refine @Relieves.granted _ _ _ _ removed (Command.tag_of_body hbody) ?_ rfl
    exact { hloses with }

theorem handleDisconnect_relieves (hbody : command.body = .disconnect) (confirm : Bool) :
    Relieves peer command none (peer.handleDisconnect confirm) := by
  have hcleared (state : PeerState) (hgrant : state ≠ .acknowledgingConnect)
      (hleaving : state ≠ .disconnecting) :
      Relieves peer command none { peer.clearQueues with state := state } := by
    refine .cleared (.inr (Command.tag_of_body hbody)) rfl ⟨hgrant, hleaving⟩ fun channel ↦ ?_
    have hlast := peer.lastNumber_clearQueues channel
    change ({ peer.clearQueues with state := state } : Peer).lastNumber channel = _ at hlast
    rw [hlast]
    split
    · rename_i hcontrol
      exact .inl (by rw [lastNumber, if_pos hcontrol])
    · exact .inr rfl
  unfold handleDisconnect
  split
  · exact .refl peer command
  · exact .refl peer command
  · exact hcleared .zombie (by decide) (by decide)
  · cases confirm with
    | true => exact hcleared .acknowledgingDisconnect (by decide) (by decide)
    | false => exact hcleared .zombie (by decide) (by decide)
  · exact .cleared (.inr (Command.tag_of_body hbody)) rfl
      ⟨fun h ↦ (by cases h), fun h ↦ by cases h⟩ fun channel ↦ .inr (lastNumber_reset _ channel)

/-- Taking in data takes nothing out. -/
theorem setChannel_loses {value taken : Channel} (groups : GroupWindow)
    (hvalue : peer.dataChannel? command.channel = some value) (htakes : value.Takes command taken) :
    Loses peer [] ({ peer with groups := groups }.setChannel command.channel taken) where
  outstanding := List.Perm.refl _
  numbers channel := by
    apply lastNumber_congr
    · rfl
    obtain ⟨-, hchannel⟩ := dataChannel?_eq_some hvalue
    have hget : (peer.channels.map (·.outgoingReliable))[command.channel.toNat]? =
        some value.outgoingReliable := by
      rw [List.getElem?_map]
      exact congrArg (Option.map _) hchannel
    obtain ⟨hlt, heq⟩ := List.getElem?_eq_some_iff.mp hget
    simp only [setChannel, List.map_set, htakes.outgoing.1]
    rw [← heq, List.set_getElem_self]

theorem perform_relieves {handled : Handled} (h : peer.perform command context = .ok handled) :
    Relieves peer command handled.event handled.peer := by
  have hlost (after : Peer) (hloses : Loses peer [] after) :
      Relieves peer command none after := .loses hloses (Nat.zero_le _) (by simp)
  cases obeys_of_perform h with
  | nothing | refused => exact .refl peer command
  | acknowledged hbody htakes => exact htakes.relieves hbody
  | answered hbody hgrant => exact hgrant.relieves hbody
  | left hbody => exact handleDisconnect_relieves hbody _
  | taken hvalue htakes => exact hlost _ (setChannel_loses _ hvalue htakes)
  | limited | throttled => exact hlost _ { Loses.refl peer with }

theorem Relieves.acknowledged (h : Relieves peer command event after) (heard : Command)
    (sentTime : Stamp) :
    Relieves peer command event (after.queueAcknowledgement heard sentTime) := by
  obtain ⟨_, _, heq, -⟩ := after.queueAcknowledgement_eq heard sentTime
  rw [heq]
  cases h with
  | loses hloses hlength hremoved => exact .loses { hloses with } hlength hremoved
  | granted htag hloses hstate => exact .granted htag { hloses with } hstate
  | cleared hcause houtstanding hstate hnumbers =>
    exact .cleared hcause houtstanding hstate hnumbers

theorem handle_relieves {header : Header}
    (h : peer.handle header command context = .ok (event, after)) :
    Relieves peer command event after := by
  obtain ⟨handled, hperform, rfl, rfl | ⟨-, -, rfl⟩⟩ := handle_eq_ok h
  · exact perform_relieves hperform
  · exact (perform_relieves hperform).acknowledged command header.sentTime

/-! ## Delivering -/

theorem receiveFrom_outgoing (first : Nat) (channels : List Channel) :
    (receiveFrom first channels).2.map (·.outgoingReliable) =
      channels.map (·.outgoingReliable) := by
  induction channels generalizing first with
  | nil => rfl
  | cons value rest ih =>
    have hvalue := value.receive_outgoing.1
    unfold receiveFrom
    split
    · rename_i packet taken hreceive
      rw [hreceive] at hvalue
      rw [List.map_cons, List.map_cons, hvalue]
    · rename_i taken hreceive
      rw [hreceive] at hvalue
      rw [List.map_cons, List.map_cons, hvalue, ih]

theorem receiveAny_loses (peer : Peer) : Loses peer [] peer.receiveAny.2 where
  outstanding := List.Perm.refl _
  numbers := lastNumber_congr rfl (receiveFrom_outgoing 0 peer.channels)

theorem receive_loses (peer : Peer) (channel : UInt8) : Loses peer [] (peer.receive channel).2 := by
  unfold receive
  split
  · exact .refl peer
  · rename_i value hvalue
    refine { outstanding := List.Perm.refl _, numbers := lastNumber_congr rfl ?_ }
    obtain ⟨hlt, heq⟩ := List.getElem?_eq_some_iff.mp hvalue
    have hmap : channel.toNat < (peer.channels.map (·.outgoingReliable)).length := by
      simpa using hlt
    have hget : (peer.channels.map (·.outgoingReliable))[channel.toNat] =
        value.outgoingReliable := by
      rw [List.getElem_map, heq]
    simp only [setChannel, List.map_set, value.receive_outgoing.1]
    rw [← hget, List.set_getElem_self]

end Peer

end ReliableDatagram
