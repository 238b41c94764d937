import ReliableDatagram.Proofs.Peer.Bounds
import ReliableDatagram.Proofs.Peer.Budget

/-!
# How long the commands are that wait

A peer cuts its packets to the size of a datagram when they are submitted, and looks at that
size again only when it composes one. In between the size changes once at most, where a
connection is granted, and what waits by then carries no payload. So whatever waits is no
longer than a datagram has room for, as long as it has room for a command without a payload.
-/

namespace ReliableDatagram

/-! ## The lengths of commands -/

namespace Command

/-- The command is no longer than a request for a connection. -/
def Brief (command : Command) : Prop := command.encodedLength ≤ Tag.connect.headerSize

/-- What carries no payload is brief. -/
theorem brief_of_tag {command : Command} (h : command.tag.carriesPayload = false) :
    command.Brief := by
  have hnone : command.body.payload? = none := by
    rw [← Option.not_isSome_iff_eq_none, Body.isSome_payload?]
    exact ne_true_of_eq_false h
  have hlength : command.body.payloadLength = 0 := by
    rw [Body.payloadLength, hnone]
    rfl
  rw [Brief, encodedLength, hlength, headerSize]
  generalize command.tag = tag
  cases tag <;> decide

end Command

theorem Acknowledgement.brief_toCommand (acknowledgement : Acknowledgement) :
    acknowledgement.toCommand.Brief := Command.brief_of_tag rfl

namespace Peer

variable {peer middle after : Peer} {command : Command} {limit : Nat}

/-! ## What comes into the queues -/

/-- Nothing has come into the queues that is longer than the limit. -/
def Gains (limit : Nat) (peer after : Peer) : Prop :=
  ∀ command, after.Holds command → peer.Holds command ∨ command.encodedLength ≤ limit

theorem Gains.of_sheds (h : Sheds peer after) : Gains limit peer after :=
  fun _ hholds ↦ .inl (hholds.of_sheds h)

theorem Gains.refl (peer : Peer) : Gains limit peer peer := .of_sheds (.refl peer)

theorem Gains.trans (h : Gains limit peer middle) (hmore : Gains limit middle after) :
    Gains limit peer after := fun command hholds ↦ by
  rcases hmore command hholds with hmiddle | hlength
  · exact h command hmiddle
  · exact .inr hlength

theorem queueCommand_gains (h : command.encodedLength ≤ limit) :
    Gains limit peer (peer.queueCommand command) := by
  obtain ⟨numbered, -, -, hlength, hacknowledgements, hqueues⟩ := peer.queueCommand_queues command
  rw [← hlength] at h
  intro other hholds
  rcases hqueues with ⟨-, houtstanding, hunreliable⟩ | ⟨-, houtstanding, hunreliable⟩
  all_goals
    rw [Holds, hacknowledgements, houtstanding, hunreliable] at hholds
    rcases hholds with hmem | hmem | hmem
  · exact .inl (.inl hmem)
  · exact .inl (.inr (.inl hmem))
  · rcases List.mem_append.mp hmem with hmem | hmem
    · exact .inl (.inr (.inr hmem))
    · rw [List.mem_singleton.mp hmem]
      exact .inr h
  · exact .inl (.inl hmem)
  · obtain ⟨outgoing, hmem, rfl⟩ := hmem
    rcases List.mem_append.mp hmem with hmem | hmem
    · exact .inl (.inr (.inl ⟨outgoing, hmem, rfl⟩))
    · rw [List.mem_singleton.mp hmem]
      exact .inr h
  · exact .inl (.inr (.inr hmem))

theorem queueFragments_gains {channel : UInt8} {fragments : List Fragment}
    (h : ∀ fragment ∈ fragments,
      Tag.sendFragment.headerSize + fragment.payload.length ≤ limit) :
    Gains limit peer (peer.queueFragments channel fragments) := by
  induction fragments generalizing peer with
  | nil => exact .refl peer
  | cons fragment rest ih =>
    obtain ⟨hfirst, hrest⟩ := List.forall_mem_cons.mp h
    exact (queueCommand_gains hfirst).trans (ih hrest)

/-! ## The room for them -/

/-- How many bytes the commands of a datagram can take. -/
def room (peer : Peer) : Nat := peer.mtu.toNat - peer.draft.size

/-- How long a command may be that is queued: so long that a datagram has room for it, and in any
case so long as a brief one. -/
def reach (peer : Peer) : Nat := max Tag.connect.headerSize peer.room

theorem reach_congr (hterms : after.terms = peer.terms) : after.reach = peer.reach := by
  rw [reach, room, size_draft, reach, room, size_draft,
    show after.mtu = peer.mtu from congrArg Terms.mtu hterms,
    show after.settings = peer.settings from congrArg Terms.settings hterms]

/-- A fragment is cut so that it fits. -/
theorem fragmentLength_le (peer : Peer) :
    Tag.sendFragment.headerSize + peer.fragmentLength ≤ peer.reach := by
  have hheader : Tag.connect.headerSize = 44 ∧ Tag.sendFragment.headerSize = 32 := by decide
  rw [reach, room, size_draft, fragmentLength, hheader.1, hheader.2,
    show Checksum.size = 4 from rfl]
  omega

theorem length_of_mem_ofPayload {start : UInt32} {size : Nat} {payload : Bytes}
    {fragment : Fragment} (hsize : 0 < size)
    (h : fragment ∈ Fragment.ofPayload start size payload) :
    fragment.payload.length ≤ size := by
  obtain ⟨k, hk⟩ := List.mem_iff_getElem?.mp h
  rw [Fragment.getElem?_ofPayload start hsize] at hk
  split at hk
  · cases hk
    exact List.length_take_le _ _
  · cases hk

theorem wholeCommand_encodedLength_le (channel : UInt8) (packet : Packet) :
    (wholeCommand channel packet).encodedLength ≤ Tag.sendFragment.headerSize + packet.size := by
  have hheader (tag : Tag) (hpayload : tag.carriesPayload = true) :
      tag.headerSize ≤ Tag.sendFragment.headerSize := by
    revert hpayload
    cases tag <;> decide
  unfold wholeCommand
  repeat' split
  all_goals exact Nat.add_le_add_right (hheader _ rfl) _

/-- A packet is cut so that its commands fit. -/
theorem send_gains {channel : UInt8} {packet : Packet} (h : peer.send channel packet = .ok after) :
    Gains peer.reach peer after := by
  have hcut := peer.fragmentLength_le
  obtain ⟨-, value, -, -, -, rfl⟩ := send_eq_ok_iff.mp h
  split <;> rename_i hsize
  · refine queueFragments_gains fun fragment hmem ↦ ?_
    have hlength := length_of_mem_ofPayload peer.fragmentLength_pos hmem
    omega
  · have hlength := wholeCommand_encodedLength_le channel packet
    exact queueCommand_gains (by omega)

/-! ## What waits fits -/

/-- A command that waits is no longer than may be queued, and brief as long as a grant may still
change how long that is. -/
structure Stowed (peer : Peer) : Prop where
  within : ∀ command, peer.Holds command → command.encodedLength ≤ peer.reach
  brief : peer.state = .connecting → ∀ command, peer.Holds command → command.Brief

theorem Stowed.of_brief (h : ∀ command, peer.Holds command → command.Brief) : Stowed peer where
  within command hholds := Nat.le_trans (h command hholds) (Nat.le_max_left _ _)
  brief _ := h

theorem Stowed.of_gains (h : Stowed peer) (hgains : Gains Tag.connect.headerSize peer after)
    (hreach : after.reach = peer.reach)
    (hstate : after.state = .connecting → peer.state = .connecting) : Stowed after where
  within command hholds := by
    rw [hreach]
    rcases hgains command hholds with hold | hlength
    · exact h.within command hold
    · exact Nat.le_trans hlength (Nat.le_max_left _ _)
  brief hconnecting command hholds := by
    rcases hgains command hholds with hold | hlength
    · exact h.brief (hstate hconnecting) command hold
    · exact hlength

theorem Stowed.of_sheds (h : Stowed peer) (hsheds : Sheds peer after)
    (hterms : after.terms = peer.terms)
    (hstate : after.state = .connecting → peer.state = .connecting) : Stowed after :=
  h.of_gains (.of_sheds hsheds) (reach_congr hterms) hstate

theorem vacant_stowed (id : UInt16) (settings : Settings) : Stowed (vacant id settings) :=
  .of_brief fun _ hholds ↦ by simp [Holds, outstanding, vacant] at hholds

theorem reset_stowed (peer : Peer) : Stowed peer.reset := vacant_stowed ..

theorem connect_stowed {address : Address} {channelCount : Nat} {challenge : UInt32}
    {context : Context} (h : peer.connect address channelCount challenge context = .ok after) :
    Stowed after := by
  obtain ⟨_, _, -, -, hasked⟩ := connect_eq_ok h
  refine .of_brief fun command hholds ↦ ?_
  rw [Holds, hasked.acknowledgements, hasked.unreliable, hasked.outstanding] at hholds
  rcases hholds with ⟨_, hmem, -⟩ | ⟨_, hmem, -⟩ | hmem
  · cases hmem
  · cases hmem
  · rw [List.mem_singleton.mp hmem]
    exact Command.brief_of_tag rfl

theorem accept_stowed {address : Address} {header : Header} {offer : Handshake}
    {context : Context} (h : peer.accept address header command offer context = .ok after) :
    Stowed after := by
  obtain ⟨_, _, _, -, -, -, hgranted⟩ := accept_eq_ok h
  refine .of_brief fun command hholds ↦ ?_
  rw [Holds, hgranted.acknowledgements, hgranted.unreliable, hgranted.outstanding] at hholds
  rcases hholds with ⟨acknowledgement, -, rfl⟩ | ⟨_, hmem, -⟩ | hmem
  · exact acknowledgement.brief_toCommand
  · cases hmem
  · rw [List.mem_singleton.mp hmem]
    exact Command.brief_of_tag rfl

theorem TakesAcknowledgement.stowed {channel : UInt8} {sequence : UInt32} {sentTime : Stamp}
    {context : Context} {event : Option PeerEvent}
    (h : peer.TakesAcknowledgement channel sequence sentTime context event after)
    (hstowed : Stowed peer) : Stowed after := by
  have hgains : Gains Tag.connect.headerSize peer after := .of_sheds h.sheds
  have hterms := ((peer.heard sentTime context).terms_removeSent sequence channel).1.trans
    (peer.terms_heard sentTime context)
  cases h with
  | early => exact hstowed
  | confirmed => exact hstowed.of_gains hgains (reach_congr hterms) nofun
  | departed => exact peer.reset_stowed
  | noted =>
    have hsame := peer.removeSent_heard_state sentTime context sequence channel
    exact hstowed.of_gains hgains (reach_congr hterms) fun hstate ↦ hsame ▸ hstate

theorem TakesGrant.stowed {answer : Handshake} {handled : Handled}
    (h : peer.TakesGrant answer handled) (hstowed : Stowed peer) : Stowed handled.peer := by
  have hsheds := h.sheds
  cases h with
  | unasked => exact hstowed
  | refused => exact hstowed.of_gains (.of_sheds hsheds) rfl nofun
  | granted hconnecting =>
    exact .of_brief fun command hholds ↦ hstowed.brief hconnecting command (hholds.of_sheds hsheds)

theorem handleDisconnect_stowed (hstowed : Stowed peer) (confirm : Bool) :
    Stowed (peer.handleDisconnect confirm) := by
  have hgains : Gains Tag.connect.headerSize peer (peer.handleDisconnect confirm) :=
    .of_sheds (peer.handleDisconnect_sheds confirm)
  unfold handleDisconnect at hgains ⊢
  split at hgains
  · exact hstowed
  · exact hstowed
  · exact hstowed.of_gains hgains rfl nofun
  · exact hstowed.of_gains hgains rfl (by cases confirm <;> nofun)
  · exact peer.reset_stowed

theorem perform_stowed {context : Context} {handled : Handled} (hstowed : Stowed peer)
    (h : peer.perform command context = .ok handled) : Stowed handled.peer := by
  have hgains : Gains Tag.connect.headerSize peer handled.peer := .of_sheds (perform_sheds h)
  cases obeys_of_perform h with
  | nothing | refused => exact hstowed
  | acknowledged _ htakes => exact htakes.stowed hstowed
  | answered _ hgrant => exact hgrant.stowed hstowed
  | left => exact handleDisconnect_stowed hstowed _
  | taken | limited | throttled => exact hstowed.of_gains hgains rfl fun hstate ↦ hstate

theorem queueAcknowledgement_gains (peer : Peer) (command : Command) (sentTime : Stamp) :
    Gains Tag.connect.headerSize peer (peer.queueAcknowledgement command sentTime) := by
  obtain ⟨_, _, heq, hwaiting⟩ := peer.queueAcknowledgement_eq command sentTime
  rw [heq]
  rintro other (⟨acknowledgement, hmem, rfl⟩ | hold)
  · exact .inr acknowledgement.brief_toCommand
  · exact .inl (.inr hold)

theorem handle_stowed {header : Header} {context : Context} {event : Option PeerEvent}
    (hstowed : Stowed peer) (h : peer.handle header command context = .ok (event, after)) :
    Stowed after := by
  obtain ⟨handled, hperform, -, rfl | ⟨-, -, rfl⟩⟩ := handle_eq_ok h
  · exact perform_stowed hstowed hperform
  · have hsame := handled.peer.queueAcknowledgement_state command header.sentTime
    exact (perform_stowed hstowed hperform).of_gains
      (handled.peer.queueAcknowledgement_gains command header.sentTime)
      (reach_congr (terms_queueAcknowledgement ..)) fun hstate ↦ hsame ▸ hstate

/-- Composing queues nothing but a ping. -/
theorem Composes.gains {commands : List Command} (h : Composes peer commands after) :
    Gains Tag.connect.headerSize peer after := by
  rintro command (⟨acknowledgement, hmem, hcommand⟩ | ⟨outgoing, hmem, hcommand⟩ | hmem)
  · exact .inl (.inl ⟨acknowledgement, h.acknowledgements hmem, hcommand⟩)
  · exact .inl (.inr (.inl ⟨outgoing, h.unreliable hmem, hcommand⟩))
  · rcases h.outstanding command hmem with hold | ⟨-, hbody⟩
    · exact .inl (.inr (.inr hold))
    · refine .inr (Command.brief_of_tag ?_)
      rw [Command.tag_of_body hbody]
      rfl

theorem compose_stowed (hstowed : Stowed peer) (now : Stamp) (check : Bool) :
    Stowed (peer.compose now check).2 := by
  rcases peer.compose_cases now check with ⟨-, hreset⟩ | ⟨hgoes, _, hcomposes, -⟩
  · rw [hreset]
    exact peer.reset_stowed
  · refine hstowed.of_gains hcomposes.gains (reach_congr (peer.terms_compose now check hgoes))
      fun hconnecting ↦ ?_
    rcases hcomposes.state with hsame | hover
    · rwa [hsame] at hconnecting
    · rw [hover] at hconnecting
      cases hconnecting

theorem send_stowed {channel : UInt8} {packet : Packet} (hstowed : Stowed peer)
    (h : peer.send channel packet = .ok after) : Stowed after := by
  have hreach := reach_congr (terms_send h)
  have hconnected : after.state = .connected := (send_state h).trans (send_frame h).1
  refine ⟨fun command hholds ↦ ?_, fun hconnecting ↦ ?_⟩
  · rw [hreach]
    rcases send_gains h command hholds with hold | hlength
    · exact hstowed.within command hold
    · exact hlength
  · rw [hconnected] at hconnecting
    cases hconnecting

/-- Queueing a command without a payload changes neither the state nor the room. -/
theorem queueCommand_stowed (hstowed : Stowed peer) (command : Command)
    (h : command.tag.carriesPayload = false) : Stowed (peer.queueCommand command) :=
  hstowed.of_gains (queueCommand_gains (Command.brief_of_tag h))
    (reach_congr (peer.terms_queueCommand command))
    fun hstate ↦ (peer.queueCommand_enqueues command).state ▸ hstate

theorem queueControl_stowed (hstowed : Stowed peer) (body : Body)
    (h : body.tag.carriesPayload = false) : Stowed (peer.queueControl body) :=
  queueCommand_stowed hstowed (.unnumbered body controlChannel Command.acknowledgeFlag) h

theorem clearQueues_stowed (hstowed : Stowed peer) : Stowed peer.clearQueues :=
  hstowed.of_sheds peer.clearQueues_sheds peer.terms_clearQueues fun hstate ↦ hstate

theorem ping_stowed (hstowed : Stowed peer) : Stowed peer.ping := by
  unfold ping
  split
  · exact queueControl_stowed hstowed .ping rfl
  · exact hstowed

theorem farewell_stowed (hstowed : Stowed peer) : Stowed (peer.clearQueues.queueCommand
    (.unnumbered .disconnect controlChannel Command.unsequencedFlag)) :=
  queueCommand_stowed (clearQueues_stowed hstowed) _ rfl

theorem disconnect_stowed (hstowed : Stowed peer) : Stowed peer.disconnect.2 := by
  unfold disconnect
  split
  · exact hstowed
  · split
    · have hasked := queueControl_stowed (clearQueues_stowed hstowed) .disconnect rfl
      exact hasked.of_sheds { Sheds.refl (peer.clearQueues.queueControl .disconnect) with } rfl
        nofun
    · exact farewell_stowed hstowed

theorem disconnectNow_stowed (hstowed : Stowed peer) : Stowed peer.disconnectNow.2 := by
  unfold disconnectNow
  split
  · exact hstowed
  · exact farewell_stowed hstowed

theorem receive_stowed (hstowed : Stowed peer) (channel : UInt8) :
    Stowed (peer.receive channel).2 := by
  unfold receive
  split
  · exact hstowed
  · exact hstowed.of_sheds { Sheds.refl peer with } (terms_setChannel ..) fun hstate ↦ hstate

theorem receiveAny_stowed (hstowed : Stowed peer) : Stowed peer.receiveAny.2 :=
  hstowed.of_sheds { Sheds.refl peer with } peer.terms_receiveAny fun hstate ↦ hstate

theorem Operates.stowed (h : Operates peer after) (hstowed : Stowed peer) : Stowed after := by
  cases h with
  | send hsend => exact send_stowed hstowed hsend
  | receive channel => exact receive_stowed hstowed channel
  | ping => exact ping_stowed hstowed
  | disconnect => exact disconnect_stowed hstowed
  | disconnectNow => exact disconnectNow_stowed hstowed
  | reset => exact peer.reset_stowed
  | abandon => exact hstowed.of_sheds { Sheds.refl peer with } rfl nofun
  | receiveAny => exact receiveAny_stowed hstowed
  | relocate | recordReceived | setThrottleLimit | markEpochs | resetTotals =>
    exact hstowed.of_sheds { Sheds.refl peer with } rfl fun hstate ↦ hstate

theorem Undergoes.stowed (h : Undergoes peer after) (hstowed : Stowed peer) : Stowed after := by
  cases h with
  | connects hconnect => exact connect_stowed hconnect
  | accepts haccept => exact accept_stowed haccept
  | refuses => exact hstowed
  | operates hoperates => exact hoperates.stowed hstowed
  | configures parameters =>
    have hconfigured : Stowed { peer with pacing := peer.pacing.configure parameters } :=
      ⟨hstowed.within, hstowed.brief⟩
    exact queueControl_stowed hconfigured (.throttleConfigure parameters) rfl
  | announces incoming outgoing =>
    exact queueControl_stowed hstowed (.bandwidthLimit incoming outgoing) rfl
  | composes now check => exact compose_stowed hstowed now check
  | handles hhandle => exact handle_stowed hstowed hhandle

variable {id : UInt16} {settings : Settings}

theorem Reached.stowed (h : Reached id settings peer) : Stowed peer := by
  induction h with
  | vacant => exact vacant_stowed id settings
  | act _ hact ih => exact (undergoes_of_act hact).stowed ih
  | operate _ hoperates ih => exact hoperates.stowed ih

end Peer

end ReliableDatagram
