import ReliableDatagram.Proofs.Peer.Continuation
import ReliableDatagram.Proofs.Peer.Flow

/-!
# What is asked of a peer

Apart from composing datagrams and handling what arrives, a peer does what its application and
its host ask of it: it takes packets to send and delivers received ones, pings, leaves, and
keeps the accounts of its host. None of this touches the terms of a connection that goes on,
and none of it acknowledges anything. Only a peer that is connected queues more than a
farewell that nobody confirms.

With what handling and composing do, this says for each way in which a peer can change what can
have come into its queues.
-/

namespace ReliableDatagram

namespace Command

/-- The command carries data, or says that its sender is alive or leaves. -/
def isRoutine (command : Command) : Bool :=
  match command.tag with
  | .ping | .disconnect | .sendReliable | .sendUnreliable | .sendFragment | .sendUnsequenced => true
  | _ => false

/-- The command says that its sender leaves, and asks for no confirmation. -/
def isFarewell (command : Command) : Bool :=
  command.tag == .disconnect && !command.requiresAcknowledgement

theorem isRoutine_of_isFarewell {command : Command} (h : command.isFarewell = true) :
    command.isRoutine = true := by
  rw [isFarewell, Bool.and_eq_true, beq_iff_eq] at h
  rw [isRoutine, h.1]

/-- A routine command neither sets anything nor belongs to the handshake. -/
theorem tag_of_isRoutine {command : Command} (h : command.isRoutine = true) :
    command.configures = false ∧ command.tag ≠ .connect ∧ command.tag ≠ .verifyConnect ∧
      command.tag ≠ .acknowledge := by
  unfold isRoutine at h
  unfold configures
  generalize command.tag = tag at *
  cases tag <;> simp_all

end Command

namespace Peer

variable {peer after : Peer}

/-- What the application and the host can ask of a peer, settings for the other end apart. -/
inductive Operates (peer : Peer) : Peer → Prop where
  | send {channel : UInt8} {packet : Packet} {after : Peer}
      (hsend : peer.send channel packet = .ok after) : Operates peer after
  | receive (channel : UInt8) : Operates peer (peer.receive channel).2
  | receiveAny : Operates peer peer.receiveAny.2
  | ping : Operates peer peer.ping
  | disconnect : Operates peer peer.disconnect.2
  | disconnectNow : Operates peer peer.disconnectNow.2
  | reset : Operates peer peer.reset
  | abandon : Operates peer peer.abandon
  /-- The other end has moved. -/
  | relocate (address : Address) : Operates peer (peer.relocate address)
  | recordReceived (length : Nat) : Operates peer (peer.recordReceived length)
  | setThrottleLimit (limit : UInt32) : Operates peer (peer.setThrottleLimit limit)
  /-- It is noted when the shares were settled. -/
  | markEpochs (incoming outgoing : Stamp) : Operates peer (peer.markEpochs incoming outgoing)
  | resetTotals : Operates peer peer.resetTotals

/-- The connection is over, or the peer has kept to its terms and queued routine commands. -/
structure Abides (peer after : Peer) : Prop where
  settings : after.settings = peer.settings
  state : after.state = peer.state ∨ after.state.isActive = false ∨
    peer.state = .connected ∧ after.state = .disconnecting
  terms : after.state.isActive = true → after.terms = peer.terms
  acknowledgements : after.acknowledgements ⊆ peer.acknowledgements
  outstanding : ∀ command ∈ after.outstanding,
    command ∈ peer.outstanding ∨ peer.state = .connected ∧ command.isRoutine = true
  unreliable : ∀ outgoing ∈ after.unreliable, outgoing ∈ peer.unreliable ∨
    peer.state = .connected ∧ outgoing.command.isRoutine = true ∨
      outgoing.command.isFarewell = true

/-- A peer whose queues have not grown. -/
theorem Abides.of_sheds (hsheds : Sheds peer after) (hsettings : after.settings = peer.settings)
    (hstate : after.state = peer.state ∨ after.state.isActive = false)
    (hterms : after.state.isActive = true → after.terms = peer.terms) : Abides peer after where
  settings := hsettings
  state := hstate.imp_right .inl
  terms := hterms
  acknowledgements := hsheds.acknowledgements
  outstanding _ hcommand := .inl (hsheds.outstanding hcommand)
  unreliable _ houtgoing := .inl (hsheds.unreliable houtgoing)

theorem Abides.refl (peer : Peer) : Abides peer peer :=
  .of_sheds (.refl peer) rfl (.inl rfl) fun _ ↦ rfl

/-! ## Queueing -/

/-- Numbering leaves the kind and the flags of a command and the queues of the peer as they
are. -/
theorem number_frame (peer : Peer) (command : Command) :
    (peer.number command).1.tag = command.tag ∧ (peer.number command).1.flags = command.flags ∧
      (peer.number command).2.sent = peer.sent ∧
      (peer.number command).2.reliable = peer.reliable ∧
      (peer.number command).2.unreliable = peer.unreliable ∧
      (peer.number command).2.acknowledgements = peer.acknowledgements := by
  unfold number Command.tag
  dsimp only
  repeat' split
  all_goals
    refine ⟨?_, rfl, rfl, rfl, rfl, rfl⟩
    try first | rfl | (rename_i hbody; rw [hbody]; rfl)

/-- Numbering a command does not change its length. -/
theorem encodedLength_number (peer : Peer) (command : Command) :
    (peer.number command).1.encodedLength = command.encodedLength := by
  unfold number
  dsimp only
  repeat' split
  all_goals
    try first | rfl | (rename_i hbody; simp only [Command.encodedLength, Command.headerSize,
      Command.tag, hbody]; rfl)

/-- The numbered command goes behind those that wait to be sent reliably, or behind the
others. -/
theorem queueCommand_queues (peer : Peer) (command : Command) :
    ∃ numbered : Command, numbered.tag = command.tag ∧ numbered.flags = command.flags ∧
      numbered.encodedLength = command.encodedLength ∧
      (peer.queueCommand command).acknowledgements = peer.acknowledgements ∧
      (command.requiresAcknowledgement = true ∧
          (peer.queueCommand command).outstanding = peer.outstanding ++ [numbered] ∧
          (peer.queueCommand command).unreliable = peer.unreliable ∨
        command.requiresAcknowledgement = false ∧
          (peer.queueCommand command).outstanding = peer.outstanding ∧
          (peer.queueCommand command).unreliable =
            peer.unreliable ++ [{ command := numbered }]) := by
  obtain ⟨htag, hflags, hsent, hreliable, hunreliable, hacknowledgements⟩ := number_frame
    { peer with outgoingTotal := peer.outgoingTotal + UInt32.ofNat command.encodedLength } command
  refine ⟨_, htag, hflags, encodedLength_number _ command, ?_⟩
  have hasks : (number { peer with
      outgoingTotal := peer.outgoingTotal + UInt32.ofNat command.encodedLength }
        command).1.requiresAcknowledgement = command.requiresAcknowledgement := by
    rw [Command.requiresAcknowledgement, hflags, Command.requiresAcknowledgement]
  unfold queueCommand
  dsimp only
  rw [hasks]
  cases command.requiresAcknowledgement with
  | true =>
    refine ⟨hacknowledgements, .inl ⟨rfl, ?_, hunreliable⟩⟩
    simp [Peer.outstanding, hsent, hreliable]
  | false =>
    refine ⟨hacknowledgements, .inr ⟨rfl, ?_, ?_⟩⟩
    · simp [Peer.outstanding, hsent, hreliable]
    · simp [hunreliable]

theorem isRoutine_congr {command other : Command} (h : command.tag = other.tag) :
    command.isRoutine = other.isRoutine := by
  rw [Command.isRoutine, h, Command.isRoutine]

/-- A connected peer queues a routine command. -/
theorem queueCommand_abides {command : Command} (hconnected : peer.state = .connected)
    (hroutine : command.isRoutine = true) : Abides peer (peer.queueCommand command) := by
  obtain ⟨numbered, htag, -, -, hacknowledgements, hqueues⟩ := peer.queueCommand_queues command
  have hnumbered : numbered.isRoutine = true := by
    rw [isRoutine_congr htag, hroutine]
  refine {
    settings := (peer.queueCommand_enqueues command).settings
    state := .inl (peer.queueCommand_enqueues command).state
    terms := fun _ ↦ peer.terms_queueCommand command
    acknowledgements := by rw [hacknowledgements]; exact List.Subset.refl _
    outstanding := fun other hother ↦ ?_
    unreliable := fun outgoing houtgoing ↦ ?_ }
  · rcases hqueues with ⟨-, houtstanding, -⟩ | ⟨-, houtstanding, -⟩ <;> rw [houtstanding] at hother
    · rcases List.mem_append.mp hother with hother | hother
      · exact .inl hother
      · rw [List.mem_singleton.mp hother]
        exact .inr ⟨hconnected, hnumbered⟩
    · exact .inl hother
  · rcases hqueues with ⟨-, -, hunreliable⟩ | ⟨-, -, hunreliable⟩ <;> rw [hunreliable] at houtgoing
    · exact .inl houtgoing
    · rcases List.mem_append.mp houtgoing with houtgoing | houtgoing
      · exact .inl houtgoing
      · rw [List.mem_singleton.mp houtgoing]
        exact .inr (.inl ⟨hconnected, hnumbered⟩)

/-- Two routine commands, one after the other. -/
theorem Abides.queueCommand {command : Command} {middle : Peer} (h : Abides peer middle)
    (hsame : middle.state = peer.state) (hconnected : peer.state = .connected)
    (hroutine : command.isRoutine = true) : Abides peer (middle.queueCommand command) := by
  have hmore := queueCommand_abides (hsame.trans hconnected) hroutine
  have hactive : middle.state.isActive = true := by
    rw [hsame, hconnected]
    rfl
  refine {
    settings := hmore.settings.trans h.settings
    state := .inl ((middle.queueCommand_enqueues command).state.trans hsame)
    terms := fun hafter ↦ (hmore.terms hafter).trans (h.terms hactive)
    acknowledgements := List.Subset.trans hmore.acknowledgements h.acknowledgements
    outstanding := fun other hother ↦ ?_
    unreliable := fun outgoing houtgoing ↦ ?_ }
  · rcases hmore.outstanding other hother with hold | ⟨-, hnew⟩
    · exact h.outstanding other hold
    · exact .inr ⟨hconnected, hnew⟩
  · rcases hmore.unreliable outgoing houtgoing with hold | ⟨-, hnew⟩ | hnew
    · exact h.unreliable outgoing hold
    · exact .inr (.inl ⟨hconnected, hnew⟩)
    · exact .inr (.inr hnew)

theorem queueFragments_abides {channel : UInt8} (fragments : List Fragment)
    (hconnected : peer.state = .connected) :
    Abides peer (peer.queueFragments channel fragments) := by
  have hstep (middle : Peer) (h : Abides peer middle) (hsame : middle.state = peer.state) :
      Abides peer (middle.queueFragments channel fragments) := by
    induction fragments generalizing middle with
    | nil => exact h
    | cons fragment rest ih =>
      exact ih _ (h.queueCommand hsame hconnected rfl)
        ((middle.queueCommand_enqueues _).state.trans hsame)
  exact hstep peer (.refl peer) rfl

theorem send_abides {channel : UInt8} {packet : Packet} (h : peer.send channel packet = .ok after) :
    Abides peer after := by
  obtain ⟨hconnected, value, -, -, -, rfl⟩ := send_eq_ok_iff.mp h
  split
  · exact queueFragments_abides _ hconnected
  · refine queueCommand_abides hconnected ?_
    unfold wholeCommand
    repeat' split
    all_goals rfl

/-! ## Leaving -/

theorem clearQueues_sheds (peer : Peer) : Sheds peer peer.clearQueues := .of_empty rfl rfl rfl rfl

/-- A peer that forgets all that waits and says farewell. -/
theorem farewell_abides (peer : Peer) : Abides peer (peer.clearQueues.queueCommand
    (.unnumbered .disconnect controlChannel Command.unsequencedFlag)) := by
  obtain ⟨numbered, htag, hflags, -, hacknowledgements, hqueues⟩ :=
    peer.clearQueues.queueCommand_queues
      (.unnumbered .disconnect controlChannel Command.unsequencedFlag)
  have hfarewell : numbered.isFarewell = true := by
    rw [Command.isFarewell, htag, Command.requiresAcknowledgement, hflags]
    rfl
  rcases hqueues with ⟨hasks, -⟩ | ⟨-, houtstanding, hunreliable⟩
  · cases hasks
  · refine {
      settings := (peer.clearQueues.queueCommand_enqueues _).settings
      state := .inl (peer.clearQueues.queueCommand_enqueues _).state
      terms := fun _ ↦ (peer.clearQueues.terms_queueCommand _).trans peer.terms_clearQueues
      acknowledgements := by rw [hacknowledgements]; exact List.nil_subset _
      outstanding := fun command hcommand ↦ ?_
      unreliable := fun outgoing houtgoing ↦ ?_ }
    · rw [houtstanding] at hcommand
      exact .inl (peer.clearQueues_sheds.outstanding hcommand)
    · rw [hunreliable] at houtgoing
      rw [List.mem_singleton.mp houtgoing]
      exact .inr (.inr hfarewell)

theorem disconnect_abides (peer : Peer) : Abides peer peer.disconnect.2 := by
  unfold disconnect
  split
  · exact .refl peer
  · split
    · rename_i hconnected
      have hqueues := peer.clearQueues.queueControl_eq .disconnect
      refine {
        settings := by rw [hqueues]; rfl
        state := .inr (.inr ⟨hconnected, rfl⟩)
        terms := fun _ ↦ (peer.clearQueues.terms_queueControl _).trans peer.terms_clearQueues
        acknowledgements := by rw [hqueues]; exact List.nil_subset _
        outstanding := fun command hcommand ↦ ?_
        unreliable := fun outgoing houtgoing ↦ ?_ }
      · rw [hqueues] at hcommand
        rw [List.mem_singleton.mp hcommand]
        exact .inr ⟨hconnected, rfl⟩
      · rw [hqueues] at houtgoing
        cases houtgoing
    · exact peer.farewell_abides

theorem disconnectNow_abides (peer : Peer) : Abides peer peer.disconnectNow.2 := by
  unfold disconnectNow
  split
  · exact .refl peer
  · exact peer.farewell_abides

/-! ## All requests -/

theorem Operates.abides (h : Operates peer after) : Abides peer after := by
  cases h with
  | send hsend => exact send_abides hsend
  | receive channel =>
    refine .of_sheds ?_ ?_ ?_ fun _ ↦ peer.terms_receive channel
    all_goals
      unfold Peer.receive
      split
    · exact .refl peer
    · exact { Sheds.refl peer with }
    · rfl
    · rfl
    · exact .inl rfl
    · exact .inl rfl
  | receiveAny =>
    exact .of_sheds { Sheds.refl peer with } rfl (.inl rfl) fun _ ↦ peer.terms_receiveAny
  | ping =>
    unfold Peer.ping
    split
    · rename_i hconnected
      exact queueCommand_abides hconnected rfl
    · exact .refl peer
  | disconnect => exact peer.disconnect_abides
  | disconnectNow => exact peer.disconnectNow_abides
  | reset => exact .of_sheds peer.reset_sheds rfl (.inr rfl) fun h ↦ by cases h
  | abandon =>
    exact .of_sheds { Sheds.refl peer with } rfl (.inr rfl) fun h ↦ by cases h
  | relocate address => exact .of_sheds { Sheds.refl peer with } rfl (.inl rfl) fun _ ↦ rfl
  | recordReceived length => exact .of_sheds { Sheds.refl peer with } rfl (.inl rfl) fun _ ↦ rfl
  | setThrottleLimit limit =>
    exact .of_sheds { Sheds.refl peer with } rfl (.inl rfl) fun _ ↦ rfl
  | markEpochs incoming outgoing =>
    exact .of_sheds { Sheds.refl peer with } rfl (.inl rfl) fun _ ↦ rfl
  | resetTotals => exact .of_sheds { Sheds.refl peer with } rfl (.inl rfl) fun _ ↦ rfl

/-! ## What waits in the queues -/

/-- The command waits in one of the queues of the peer. -/
def Holds (peer : Peer) (command : Command) : Prop :=
  (∃ acknowledgement ∈ peer.acknowledgements, command = acknowledgement.toCommand) ∨
    (∃ outgoing ∈ peer.unreliable, command = outgoing.command) ∨ command ∈ peer.outstanding

variable {command : Command}

theorem Holds.of_sheds (hsheds : Sheds peer after) (h : after.Holds command) :
    peer.Holds command := by
  rcases h with ⟨acknowledgement, hmem, hcommand⟩ | ⟨outgoing, hmem, hcommand⟩ | hmem
  · exact .inl ⟨acknowledgement, hsheds.acknowledgements hmem, hcommand⟩
  · exact .inr (.inl ⟨outgoing, hsheds.unreliable hmem, hcommand⟩)
  · exact .inr (.inr (hsheds.outstanding hmem))

theorem Abides.holds (h : Abides peer after) (hafter : after.Holds command) :
    peer.Holds command ∨ peer.state = .connected ∧ command.isRoutine = true ∨
      command.isFarewell = true := by
  rcases hafter with ⟨acknowledgement, hmem, hcommand⟩ | ⟨outgoing, hmem, rfl⟩ | hmem
  · exact .inl (.inl ⟨acknowledgement, h.acknowledgements hmem, hcommand⟩)
  · exact (h.unreliable outgoing hmem).imp_left fun hold ↦ .inr (.inl ⟨outgoing, hold, rfl⟩)
  · rcases h.outstanding command hmem with hold | hnew
    · exact .inl (.inr (.inr hold))
    · exact .inr (.inl hnew)

theorem queueControl_holds {body : Body} (h : (peer.queueControl body).Holds command) :
    peer.Holds command ∨
      command = ⟨controlChannel, Command.acknowledgeFlag, peer.controlSequence + 1, body⟩ := by
  rw [queueControl_eq] at h
  rcases h with hacknowledgement | hunreliable | houtstanding
  · exact .inl (.inl hacknowledgement)
  · exact .inl (.inr (.inl hunreliable))
  · rw [mem_outstanding, List.map_append, List.mem_append, ← or_assoc] at houtstanding
    rcases houtstanding with hold | hnew
    · exact .inl (.inr (.inr (mem_outstanding.mpr hold)))
    · exact .inr (List.mem_singleton.mp hnew)

theorem handle_holds {header : Header} {heard : Command} {context : Context}
    {event : Option PeerEvent} (hhandle : peer.handle header heard context = .ok (event, after))
    (h : after.Holds command) :
    peer.Holds command ∨ heard.requiresAcknowledgement = true ∧
      acknowledges after.state heard.tag = true ∧
        command = (Acknowledgement.ofCommand heard header.sentTime).toCommand := by
  obtain ⟨houtstanding, hunreliable, hacknowledgements⟩ := handle_queues hhandle
  rcases h with ⟨acknowledgement, hmem, rfl⟩ | ⟨outgoing, hmem, hcommand⟩ | hmem
  · rcases hacknowledgements acknowledgement hmem with hold | ⟨hasks, hallows, rfl⟩
    · exact .inl (.inl ⟨acknowledgement, hold, rfl⟩)
    · exact .inr ⟨hasks, hallows, rfl⟩
  · exact .inl (.inr (.inl ⟨outgoing, hunreliable hmem, hcommand⟩))
  · exact .inl (.inr (.inr (houtstanding hmem)))

theorem settings_compose (peer : Peer) (now : Stamp) (check : Bool) :
    (peer.compose now check).2.settings = peer.settings := by
  rcases peer.compose_cases now check with ⟨-, hreset⟩ | ⟨-, commands, hcomposes, -⟩
  · rw [hreset]
    rfl
  · exact hcomposes.settings

/-- Composing puts into the queues and the datagram what waited before, and the pings of a
connected peer. -/
theorem compose_holds (peer : Peer) (now : Stamp) (check : Bool) (command : Command) :
    ((peer.compose now check).2.Holds command → peer.Holds command ∨
        peer.state = .connected ∧ command.isRoutine = true) ∧
      ∀ datagram, (peer.compose now check).1 = .ok (.datagram datagram) →
        ∀ header commands, Datagram.Reads peer.settings.checksums datagram header commands →
          command ∈ commands →
            peer.Holds command ∨ peer.state = .connected ∧ command.isRoutine = true := by
  rcases peer.compose_cases now check with ⟨hover, hreset⟩ | ⟨hgoes, commands, hcomposes, hreads⟩
  · refine ⟨fun h ↦ .inl ?_, fun datagram hdatagram ↦ ?_⟩
    · rw [hreset] at h
      exact h.of_sheds peer.reset_sheds
    · rw [hover] at hdatagram
      cases hdatagram
  by_cases hconnected : peer.state = .connected
  · have hping : command.body = .ping → command.isRoutine = true := by
      intro hbody
      rw [Command.isRoutine, Command.tag_of_body hbody]
      rfl
    refine ⟨?_, fun datagram hdatagram header others hothers hmem ↦ ?_⟩
    · rintro (⟨acknowledgement, hmem, hcommand⟩ | ⟨outgoing, hmem, hcommand⟩ | hmem)
      · exact .inl (.inl ⟨acknowledgement, hcomposes.acknowledgements hmem, hcommand⟩)
      · exact .inl (.inr (.inl ⟨outgoing, hcomposes.unreliable hmem, hcommand⟩))
      · rcases hcomposes.outstanding command hmem with hold | ⟨-, hbody⟩
        · exact .inl (.inr (.inr hold))
        · exact .inr ⟨hconnected, hping hbody⟩
    · rw [hreads datagram hdatagram header others hothers] at hmem
      rcases hcomposes.drawn command hmem with hold | hold | hold | ⟨-, hbody⟩
      · exact .inl (.inl hold)
      · exact .inl (.inr (.inl hold))
      · exact .inl (.inr (.inr hold))
      · exact .inr ⟨hconnected, hping hbody⟩
  · rcases peer.compose_draws now check hconnected with ⟨hover, -⟩ | ⟨-, others, hdraws, hcontent⟩
    · exact absurd hover hgoes
    refine ⟨fun h ↦ .inl (h.of_sheds ?_), fun datagram hdatagram header found hfound hmem ↦ .inl ?_⟩
    · exact {
        outstanding := hdraws.outstanding.subset
        unreliable := hdraws.unreliable
        acknowledgements := hdraws.acknowledgements }
    · rw [(hcontent datagram hdatagram header found hfound).2] at hmem
      exact hdraws.drawn command hmem

end Peer

end ReliableDatagram
