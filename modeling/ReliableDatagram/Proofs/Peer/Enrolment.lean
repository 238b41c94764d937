import ReliableDatagram.Proofs.Peer.Bounds

/-!
# What joins the reliable commands

Apart from composing, nothing puts a command into flight or changes what is in flight but by
taking commands out, and each one that waits to be sent keeps its place and its times. Commands
that are queued go behind those that wait, and have not been sent. Whatever takes commands out
of the flight sees to it that the time at which overdue commands are looked for is the deadline
of the oldest one that is left.
-/

namespace ReliableDatagram

namespace Peer

variable {peer middle after : Peer} {fresh more : List Command}

/-! ## The oldest command in flight -/

/-- Overdue commands are looked for again when the oldest command in flight is due. -/
def Timed (peer : Peer) : Prop :=
  ∀ oldest rest, peer.sent = oldest :: rest → peer.nextTimeout = oldest.deadline

theorem Timed.of_eq (h : Timed peer) (hsent : after.sent = peer.sent)
    (htimeout : after.nextTimeout = peer.nextTimeout) : Timed after := by
  rw [Timed, hsent, htimeout]
  exact h

theorem timed_of_nil (h : peer.sent = []) : Timed peer := by
  intro oldest rest hcons
  rw [h] at hcons
  cases hcons

theorem timed_refreshTimeout (peer : Peer) : Timed (refreshTimeout peer) := by
  unfold refreshTimeout
  split
  · rename_i hnone
    exact timed_of_nil hnone
  · rename_i first others hsome
    intro oldest rest hcons
    rw [show ({ peer with nextTimeout := first.deadline } : Peer).sent = first :: others
      from hsome] at hcons
    cases hcons
    rfl

/-! ## Joining -/

def waiting (fresh : List Command) : List Outgoing := fresh.map ({ command := · })

@[simp] theorem waiting_nil : waiting [] = [] := rfl

@[simp] theorem waiting_append (fresh more : List Command) :
    waiting (fresh ++ more) = waiting fresh ++ waiting more := List.map_append

/-- The fresh commands have joined those that wait to be sent reliably; of those that were in
flight or waited, some may have left. -/
structure Enrols (peer : Peer) (fresh : List Command) (after : Peer) : Prop where
  sent : after.sent.Sublist peer.sent
  reliable : after.reliable.Sublist (peer.reliable ++ waiting fresh)
  unreliable : ∀ outgoing ∈ after.unreliable,
    outgoing ∈ peer.unreliable ∨ outgoing.command.requiresAcknowledgement = false
  timing : after.sent = peer.sent ∧ after.nextTimeout = peer.nextTimeout ∨ Timed after
  ended : after.state = .disconnected → peer.state = .disconnected ∨ after.sent = []

theorem Enrols.trans (h : Enrols peer fresh middle) (hmore : Enrols middle more after) :
    Enrols peer (fresh ++ more) after where
  sent := hmore.sent.trans h.sent
  reliable := by
    rw [waiting_append, ← List.append_assoc]
    exact hmore.reliable.trans (h.reliable.append_right _)
  unreliable outgoing hmem := by
    rcases hmore.unreliable outgoing hmem with hold | hnew
    · exact h.unreliable outgoing hold
    · exact .inr hnew
  timing := by
    rcases hmore.timing with ⟨hsent, htimeout⟩ | htimed
    · rcases h.timing with ⟨hbefore, hearlier⟩ | htimed
      · exact .inl ⟨hsent.trans hbefore, htimeout.trans hearlier⟩
      · exact .inr (htimed.of_eq hsent htimeout)
    · exact .inr htimed
  ended hover := by
    rcases hmore.ended hover with hmiddle | hnone
    · rcases h.ended hmiddle with hbefore | hnone
      · exact .inl hbefore
      · have hsublist := hmore.sent
        rw [hnone] at hsublist
        exact .inr (List.sublist_nil.mp hsublist)
    · exact .inr hnone

/-- What does not touch the queues and does not end the connection. -/
theorem Enrols.of_eq (hsent : after.sent = peer.sent)
    (htimeout : after.nextTimeout = peer.nextTimeout) (hreliable : after.reliable = peer.reliable)
    (hunreliable : after.unreliable = peer.unreliable)
    (hover : after.state = .disconnected → peer.state = .disconnected) : Enrols peer [] after where
  sent := hsent ▸ List.Sublist.refl _
  reliable := by
    rw [hreliable, waiting_nil, List.append_nil]
  unreliable outgoing hmem := .inl (hunreliable ▸ hmem)
  timing := .inl ⟨hsent, htimeout⟩
  ended h := .inl (hover h)

theorem Enrols.refl (peer : Peer) : Enrols peer [] peer := .of_eq rfl rfl rfl rfl fun hover ↦ hover

/-- What empties the queues. -/
theorem Enrols.of_empty (hsent : after.sent = []) (hreliable : after.reliable = [])
    (hunreliable : after.unreliable = []) : Enrols peer [] after where
  sent := by rw [hsent]; exact List.nil_sublist _
  reliable := by rw [hreliable]; exact List.nil_sublist _
  unreliable outgoing hmem := by rw [hunreliable] at hmem; cases hmem
  timing := .inr (timed_of_nil hsent)
  ended _ := .inr hsent

/-- The fresh commands have joined those that wait, and all others are still there. -/
structure Joins (peer : Peer) (fresh : List Command) (after : Peer) : Prop where
  sent : after.sent = peer.sent
  nextTimeout : after.nextTimeout = peer.nextTimeout
  reliable : after.reliable = peer.reliable ++ waiting fresh
  unreliable : ∀ outgoing ∈ after.unreliable,
    outgoing ∈ peer.unreliable ∨ outgoing.command.requiresAcknowledgement = false
  state : after.state = peer.state

theorem Joins.refl (peer : Peer) : Joins peer [] peer where
  sent := rfl
  nextTimeout := rfl
  reliable := (List.append_nil _).symm
  unreliable _ hmem := .inl hmem
  state := rfl

theorem Joins.trans (h : Joins peer fresh middle) (hmore : Joins middle more after) :
    Joins peer (fresh ++ more) after where
  sent := hmore.sent.trans h.sent
  nextTimeout := hmore.nextTimeout.trans h.nextTimeout
  reliable := by rw [hmore.reliable, h.reliable, waiting_append, List.append_assoc]
  unreliable outgoing hmem := by
    rcases hmore.unreliable outgoing hmem with hold | hnew
    · exact h.unreliable outgoing hold
    · exact .inr hnew
  state := hmore.state.trans h.state

theorem Joins.enrols (h : Joins peer fresh after) : Enrols peer fresh after where
  sent := h.sent ▸ List.Sublist.refl _
  reliable := h.reliable ▸ List.Sublist.refl _
  unreliable := h.unreliable
  timing := .inl ⟨h.sent, h.nextTimeout⟩
  ended hover := .inl (h.state ▸ hover)

theorem Joins.outstanding (h : Joins peer fresh after) :
    after.outstanding = peer.outstanding ++ fresh := by
  rw [Peer.outstanding, Peer.outstanding, h.sent, h.reliable, ← List.append_assoc,
    List.map_append, waiting, map_command]

/-! ## Queueing -/

theorem queueCommand_joins (peer : Peer) (command : Command) :
    ∃ fresh, Joins peer fresh (peer.queueCommand command) := by
  obtain ⟨-, -, hsent, hreliable, hunreliable, -⟩ := number_frame
    { peer with outgoingTotal := peer.outgoingTotal + UInt32.ofNat command.encodedLength } command
  have henqueues := peer.queueCommand_enqueues command
  have hstate := henqueues.state
  have htimeout : (peer.queueCommand command).nextTimeout = peer.nextTimeout := by
    rw [henqueues.frame]
  unfold queueCommand at hstate htimeout ⊢
  dsimp only at hstate htimeout ⊢
  split at hstate <;> rename_i hasks
  · rw [if_pos hasks] at htimeout ⊢
    exact ⟨[_], hsent, htimeout, by rw [hreliable]; rfl, fun _ hmem ↦ .inl (hunreliable ▸ hmem),
      hstate⟩
  · rw [if_neg hasks] at htimeout ⊢
    refine ⟨[], hsent, htimeout, by rw [hreliable, waiting_nil, List.append_nil],
      fun outgoing hmem ↦ ?_, hstate⟩
    rcases List.mem_append.mp hmem with hold | hnew
    · exact .inl (hunreliable ▸ hold)
    · rw [List.mem_singleton.mp hnew]
      exact .inr (eq_false_of_ne_true hasks)

theorem queueControl_joins (peer : Peer) (body : Body) :
    ∃ fresh, Joins peer fresh (peer.queueControl body) := peer.queueCommand_joins _

theorem queueFragments_joins (peer : Peer) (channel : UInt8) (fragments : List Fragment) :
    ∃ fresh, Joins peer fresh (peer.queueFragments channel fragments) := by
  induction fragments generalizing peer with
  | nil => exact ⟨[], .refl peer⟩
  | cons fragment rest ih =>
    obtain ⟨first, hfirst⟩ := peer.queueCommand_joins
      (.unnumbered (.sendFragment fragment) channel Command.acknowledgeFlag)
    obtain ⟨others, hothers⟩ := ih (peer.queueCommand
      (.unnumbered (.sendFragment fragment) channel Command.acknowledgeFlag))
    exact ⟨first ++ others, hfirst.trans hothers⟩

theorem send_joins {channel : UInt8} {packet : Packet} (h : peer.send channel packet = .ok after) :
    ∃ fresh, Joins peer fresh after := by
  unfold send at h
  repeat' split at h
  all_goals cases h
  · exact peer.queueFragments_joins ..
  · exact peer.queueCommand_joins _

theorem ping_joins (peer : Peer) : ∃ fresh, Joins peer fresh peer.ping := by
  unfold ping
  split
  · exact peer.queueControl_joins .ping
  · exact ⟨[], .refl peer⟩

theorem configureThrottle_joins (peer : Peer) (parameters : ThrottleParameters) :
    ∃ fresh, Joins peer fresh (peer.configureThrottle parameters) := by
  obtain ⟨fresh, hjoins⟩ := queueControl_joins
    { peer with pacing := peer.pacing.configure parameters } (.throttleConfigure parameters)
  exact ⟨fresh, { hjoins with }⟩

theorem queueAcknowledgement_enrols (peer : Peer) (command : Command) (sentTime : Stamp) :
    Enrols peer [] (peer.queueAcknowledgement command sentTime) := by
  obtain ⟨_, _, heq, -⟩ := peer.queueAcknowledgement_eq command sentTime
  rw [heq]
  exact .of_eq rfl rfl rfl rfl fun hover ↦ hover

/-! ## Taking commands out -/

theorem clearQueues_enrols (peer : Peer) : Enrols peer [] peer.clearQueues :=
  .of_empty rfl rfl rfl

theorem reset_enrols (peer : Peer) : Enrols peer [] peer.reset := .of_empty rfl rfl rfl

/-- The connection goes over to a state in which it is not forgotten. -/
theorem Enrols.becomes (h : Enrols peer fresh after) {state : PeerState}
    (hstate : state ≠ .disconnected) : Enrols peer fresh { after with state := state } :=
  { h with ended := fun hover ↦ absurd hover hstate }

theorem removeSent_enrols (peer : Peer) (sequence : UInt32) (channel : UInt8) :
    Enrols peer [] (peer.removeSent sequence channel).2 := by
  unfold removeSent
  split
  · rename_i outgoing hfound
    have htimed := timed_refreshTimeout { peer with
      sent := peer.sent.eraseP (·.isNamed sequence channel)
      inTransit := Word.subSat peer.inTransit outgoing.payloadLength }
    obtain ⟨nextTimeout, hrefreshed⟩ := refreshTimeout_eq { peer with
      sent := peer.sent.eraseP (·.isNamed sequence channel)
      inTransit := Word.subSat peer.inTransit outgoing.payloadLength }
    dsimp only
    rw [hrefreshed] at htimed ⊢
    exact { Enrols.refl peer with
      sent := List.eraseP_sublist
      timing := .inr htimed
      ended := .inl }
  · dsimp only
    split
    · refine { Enrols.refl peer with reliable := ?_ }
      rw [waiting_nil, List.append_nil]
      exact List.eraseP_sublist
    · exact .refl peer

theorem removeConnect_enrols (peer : Peer) : Enrols peer [] peer.removeConnect := by
  have hfilter (other : Peer) : Enrols other []
      { other with reliable := other.reliable.filter (·.command.tag != .connect) } := by
    refine { Enrols.refl other with reliable := ?_ }
    rw [waiting_nil, List.append_nil]
    exact List.filter_sublist
  unfold removeConnect
  split
  · exact (peer.removeSent_enrols _ controlChannel).trans (hfilter _)
  · exact hfilter peer

theorem TakesAcknowledgement.enrols {channel : UInt8} {sequence : UInt32} {sentTime : Stamp}
    {context : Context} {event : Option PeerEvent}
    (h : peer.TakesAcknowledgement channel sequence sentTime context event after) :
    Enrols peer [] after := by
  have hheard : Enrols peer [] (peer.heard sentTime context) :=
    .of_eq rfl rfl rfl rfl fun hover ↦ hover
  have hremoved := hheard.trans (removeSent_enrols _ sequence channel)
  cases h with
  | early => exact .refl peer
  | confirmed => exact hremoved.becomes nofun
  | departed => exact peer.reset_enrols
  | noted => exact hremoved

theorem TakesGrant.enrols {answer : Handshake} {handled : Handled}
    (h : peer.TakesGrant answer handled) : Enrols peer [] handled.peer := by
  cases h with
  | unasked => exact .refl peer
  | refused => exact (Enrols.refl peer).becomes nofun
  | granted => exact { peer.removeConnect_enrols with ended := nofun }

theorem handleDisconnect_enrols (peer : Peer) (confirm : Bool) :
    Enrols peer [] (peer.handleDisconnect confirm) := by
  unfold handleDisconnect
  split
  · exact .refl peer
  · exact .refl peer
  · exact peer.clearQueues_enrols.becomes nofun
  · exact peer.clearQueues_enrols.becomes (by cases confirm <;> nofun)
  · exact peer.reset_enrols

theorem handle_enrols {header : Header} {command : Command} {context : Context}
    {event : Option PeerEvent} (h : peer.handle header command context = .ok (event, after)) :
    Enrols peer [] after := by
  obtain ⟨handled, hperform, -, hafter⟩ := handle_eq_ok h
  have hperformed : Enrols peer [] handled.peer := by
    cases obeys_of_perform hperform with
    | nothing | refused => exact .refl peer
    | acknowledged _ htakes => exact htakes.enrols
    | answered _ hgrant => exact hgrant.enrols
    | left => exact peer.handleDisconnect_enrols _
    | taken | limited | throttled => exact .of_eq rfl rfl rfl rfl fun hover ↦ hover
  rcases hafter with rfl | ⟨-, -, rfl⟩
  · exact hperformed
  · exact hperformed.trans (queueAcknowledgement_enrols ..)

theorem receive_enrols (peer : Peer) (channel : UInt8) :
    Enrols peer [] (peer.receive channel).2 := by
  unfold receive
  split <;> exact .of_eq rfl rfl rfl rfl fun hover ↦ hover

/-! ## Emptying the queues -/

/-- The queues have been emptied, and the fresh commands are all that is outstanding. -/
structure Renews (peer : Peer) (fresh : List Command) (after : Peer) : Prop where
  enrols : Enrols peer fresh after
  outstanding : after.outstanding = fresh

theorem Enrols.renews (h : Enrols peer [] middle) (hnone : middle.outstanding = [])
    (hjoins : Joins middle fresh after) : Renews peer fresh after where
  enrols := h.trans hjoins.enrols
  outstanding := by rw [hjoins.outstanding, hnone, List.nil_append]

theorem connect_renews {address : Address} {channelCount : Nat} {challenge : UInt32}
    {context : Context} (h : peer.connect address channelCount challenge context = .ok after) :
    ∃ fresh, Renews peer fresh after := by
  obtain ⟨count, window, -, -, rfl⟩ := connect_eq h
  have hasked : Enrols peer [] (peer.asking address count challenge window context) :=
    .of_empty rfl rfl rfl
  obtain ⟨fresh, hjoins⟩ :=
    (peer.asking address count challenge window context).queueControl_joins _
  exact ⟨fresh, hasked.renews rfl hjoins⟩

theorem accept_renews {address : Address} {header : Header} {command : Command}
    {offer : Handshake} {context : Context}
    (h : peer.accept address header command offer context = .ok after) :
    ∃ fresh, Renews peer fresh after := by
  obtain ⟨mtu, window, answered, -, -, -, rfl⟩ := accept_eq h
  have hgranted : Enrols peer [] (peer.granting address header offer mtu window context) :=
    .of_empty rfl rfl rfl
  obtain ⟨fresh, hjoins⟩ :=
    (peer.granting address header offer mtu window context).queueControl_joins
      (.verifyConnect ((peer.granting address header offer mtu window context).handshake answered
        offer.channelCount context))
  have hrenews := hgranted.renews rfl hjoins
  refine ⟨fresh, ?_, ?_⟩
  · simpa using hrenews.enrols.trans (queueAcknowledgement_enrols ..)
  · obtain ⟨_, _, heq, -⟩ := queueAcknowledgement_eq _ command header.sentTime
    rw [heq]
    exact hrenews.outstanding

theorem farewell_renews (peer : Peer) : ∃ fresh, Renews peer fresh (peer.clearQueues.queueCommand
    (.unnumbered .disconnect controlChannel Command.unsequencedFlag)) := by
  obtain ⟨fresh, hjoins⟩ := peer.clearQueues.queueCommand_joins
    (.unnumbered .disconnect controlChannel Command.unsequencedFlag)
  exact ⟨fresh, peer.clearQueues_enrols.renews rfl hjoins⟩

/-- A peer that can leave empties its queues, and any other stays as it is. -/
theorem disconnect_renews (peer : Peer) : peer.canLeave = false ∧ peer.disconnect.2 = peer ∨
    peer.canLeave = true ∧ ∃ fresh, Renews peer fresh peer.disconnect.2 := by
  unfold disconnect
  split
  · rename_i hstays
    exact .inl ⟨by simpa using hstays, rfl⟩
  · rename_i hleaves
    refine .inr ⟨by simpa using hleaves, ?_⟩
    split
    · obtain ⟨fresh, hjoins⟩ := peer.clearQueues.queueControl_joins .disconnect
      have hrenews := peer.clearQueues_enrols.renews rfl hjoins
      exact ⟨fresh, hrenews.enrols.becomes nofun, hrenews.outstanding⟩
    · exact peer.farewell_renews

theorem disconnectNow_renews (peer : Peer) :
    peer.canLeave = false ∧ peer.disconnectNow.2 = peer ∨
      peer.canLeave = true ∧ ∃ fresh, Renews peer fresh peer.disconnectNow.2 := by
  unfold disconnectNow
  split
  · rename_i hstays
    exact .inl ⟨by simpa using hstays, rfl⟩
  · rename_i hleaves
    exact .inr ⟨by simpa using hleaves, peer.farewell_renews⟩

/-! ## All that is asked of a peer -/

/-- The action empties the queues before it queues anything. -/
def clears (peer : Peer) : Action → Bool
  | .disconnect | .disconnectNow => peer.canLeave
  | action => action.begins

def enlisted (peer : Peer) (action : Action) (after : Peer) : List Command :=
  after.outstanding.drop (if peer.clears action then 0 else peer.outstanding.length)

theorem Operates.enrols (h : Operates peer after) : ∃ fresh, Enrols peer fresh after := by
  have hstays : Enrols peer [] peer := .refl peer
  cases h with
  | send hsend => exact (send_joins hsend).imp fun _ ↦ Joins.enrols
  | ping => exact peer.ping_joins.imp fun _ ↦ Joins.enrols
  | receive channel => exact ⟨[], peer.receive_enrols channel⟩
  | disconnect =>
    rcases peer.disconnect_renews with ⟨-, heq⟩ | ⟨-, hrenews⟩
    · exact ⟨[], heq.symm ▸ hstays⟩
    · exact hrenews.imp fun _ ↦ Renews.enrols
  | disconnectNow =>
    rcases peer.disconnectNow_renews with ⟨-, heq⟩ | ⟨-, hrenews⟩
    · exact ⟨[], heq.symm ▸ hstays⟩
    · exact hrenews.imp fun _ ↦ Renews.enrols
  | reset => exact ⟨[], peer.reset_enrols⟩
  | abandon => exact ⟨[], hstays.becomes nofun⟩
  | receiveAny | relocate | recordReceived | setThrottleLimit | markEpochs | resetTotals =>
    exact ⟨[], .of_eq rfl rfl rfl rfl fun hover ↦ hover⟩

variable {action : Action} {event : Option PeerEvent}

theorem Joins.enlisted (h : Joins peer fresh after) (hclears : peer.clears action = false) :
    peer.enlisted action after = fresh := by
  rw [Peer.enlisted, hclears, h.outstanding, if_neg Bool.false_ne_true, List.drop_left]

theorem Renews.enlisted (h : Renews peer fresh after) (hclears : peer.clears action = true) :
    peer.enlisted action after = fresh := by
  rw [Peer.enlisted, hclears, h.outstanding, if_pos rfl, List.drop_zero]

/-- Whatever is asked of a peer but a datagram, and whatever arrives, the commands that join are
those that are queued. -/
theorem act_enrols (hquiet : ∀ now check, action ≠ .compose now check)
    (h : peer.act action = .ok (event, after)) : ∃ fresh, Enrols peer fresh after ∧
      ∀ command, fresh.count command ≤ (peer.enlisted action after).count command := by
  have hnone (henrols : Enrols peer [] after) : ∃ fresh, Enrols peer fresh after ∧
      ∀ command, fresh.count command ≤ (peer.enlisted action after).count command :=
    ⟨[], henrols, fun _ ↦ Nat.zero_le _⟩
  have hjoined (hjoins : ∃ fresh, Joins peer fresh after) (hclears : peer.clears action = false) :
      ∃ fresh, Enrols peer fresh after ∧
        ∀ command, fresh.count command ≤ (peer.enlisted action after).count command := by
    obtain ⟨fresh, hjoins⟩ := hjoins
    exact ⟨fresh, hjoins.enrols, fun _ ↦ hjoins.enlisted hclears ▸ Nat.le_refl _⟩
  have hrenewed (hrenews : ∃ fresh, Renews peer fresh after) (hclears : peer.clears action = true) :
      ∃ fresh, Enrols peer fresh after ∧
        ∀ command, fresh.count command ≤ (peer.enlisted action after).count command := by
    obtain ⟨fresh, hrenews⟩ := hrenews
    exact ⟨fresh, hrenews.enrols, fun _ ↦ hrenews.enlisted hclears ▸ Nat.le_refl _⟩
  cases action with
  | compose now check => exact absurd rfl (hquiet now check)
  | connect address channelCount challenge context =>
    cases hconnect : peer.connect address channelCount challenge context with
    | error fault =>
      rw [act, hconnect] at h
      cases h
    | ok next =>
      rw [act, hconnect] at h
      cases h
      exact hrenewed (connect_renews hconnect) rfl
  | accept address header command offer context =>
    cases haccept : peer.accept address header command offer context with
    | error fault =>
      rw [act, haccept] at h
      cases h
    | ok next =>
      rw [act, haccept] at h
      cases h
      exact hrenewed (accept_renews haccept) rfl
  | send channel packet =>
    rw [act] at h
    split at h
    · cases h
      exact hnone (.refl peer)
    · rename_i hsend
      cases h
      exact hjoined (send_joins hsend) rfl
  | handle => exact hnone (handle_enrols h)
  | ping =>
    cases h
    exact hjoined peer.ping_joins rfl
  | configureThrottle parameters =>
    cases h
    exact hjoined (peer.configureThrottle_joins parameters) rfl
  | announceBandwidth incoming outgoing =>
    cases h
    exact hjoined (peer.queueControl_joins (.bandwidthLimit incoming outgoing)) rfl
  | disconnect =>
    cases h
    rcases peer.disconnect_renews with ⟨-, heq⟩ | ⟨hleaves, hrenews⟩
    · exact hnone (heq.symm ▸ .refl peer)
    · exact hrenewed hrenews hleaves
  | disconnectNow =>
    cases h
    rcases peer.disconnectNow_renews with ⟨-, heq⟩ | ⟨hleaves, hrenews⟩
    · exact hnone (heq.symm ▸ .refl peer)
    · exact hrenewed hrenews hleaves
  | reset =>
    cases h
    exact hnone peer.reset_enrols
  | receive channel =>
    cases h
    exact hnone (peer.receive_enrols channel)
  | receiveAny =>
    cases h
    exact hnone (.of_eq rfl rfl rfl rfl fun hover ↦ hover)

/-! ## All that can happen -/

variable {id : UInt16} {settings : Settings}

theorem Reached.keeps (h : Reached id settings peer) : peer.settings = settings :=
  (h.sized (upholds_caps settings)).keeps

/-- What holds of a vacant peer, and still holds when commands have joined and when a datagram has
been composed, holds whatever has happened. -/
theorem Reached.of_steps {holds : Peer → Prop} (hvacant : holds (Peer.vacant id settings))
    (henrols : ∀ {peer fresh after}, Enrols peer fresh after → holds peer → holds after)
    (hcomposes : ∀ {peer} now check, peer.settings = settings → holds peer →
      holds (peer.compose now check).2)
    (h : Reached id settings peer) : holds peer := by
  induction h with
  | vacant => exact hvacant
  | @act peer after action event hreached hact ih =>
    by_cases hcompose : ∃ now check, action = .compose now check
    · obtain ⟨now, check, rfl⟩ := hcompose
      cases hact
      exact hcomposes now check hreached.keeps ih
    · obtain ⟨fresh, hjoined, -⟩ := act_enrols (by simpa using hcompose) hact
      exact henrols hjoined ih
  | operate _ hoperates ih =>
    obtain ⟨fresh, hjoined⟩ := hoperates.enrols
    exact henrols hjoined ih

end Peer

end ReliableDatagram
