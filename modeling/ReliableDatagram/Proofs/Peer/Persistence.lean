import ReliableDatagram.Proofs.Peer.Continuation

/-!
# Connections that stay what they are

A connection is known by the address of its other end and by its challenge. Whatever a peer
does, it stays known by them until it is over: the only thing that gives it another address is
a datagram that comes from there.
-/

namespace ReliableDatagram

namespace Peer

variable {peer middle after : Peer}

/-- A connection that is not over does not end by going on. -/
theorem Step.alive (h : Step peer after) (halive : peer.state ≠ .disconnected) :
    after.state ≠ .disconnected := by
  cases h with
  | handle _ _ hstate => exact hstate
  | @compose now check hcompose =>
    rcases peer.compose_state now check with ⟨hover, -⟩ | ⟨-, hsame | hzombie⟩
    · exact absurd hover hcompose
    · rwa [hsame]
    · rw [hzombie]
      decide
  | send hsend => rwa [send_state hsend]
  | disconnect =>
    by_cases hconnected : peer.state = .connected
    · rw [(disconnect_of_connected hconnected).2]
      decide
    · rwa [disconnect_state peer hconnected]
  | disconnectNow => rwa [disconnectNow_state]
  | ping => rwa [ping_state]
  | configureThrottle parameters => rwa [Peer.configureThrottle, queueControl_state]
  | announceBandwidth incoming outgoing => rwa [Peer.announceBandwidth, queueControl_state]
  | receiveAny => exact halive
  | relocate address => exact halive
  | recordReceived length => exact halive
  | setThrottleLimit limit => exact halive
  | markEpochs incoming outgoing => exact halive
  | resetTotals => exact halive

theorem Continues.alive (h : Continues peer after) (halive : peer.state ≠ .disconnected) :
    after.state ≠ .disconnected := by
  induction h with
  | refl => exact halive
  | tail _ hstep ih => exact hstep.alive ih

/-- A connection goes on and is known by the same address and challenge. -/
structure Stays (peer after : Peer) : Prop where
  continues : peer.Continues after
  known : after.known = peer.known

theorem Stays.refl (peer : Peer) : peer.Stays peer := ⟨.refl, rfl⟩

theorem Stays.trans (h : peer.Stays middle) (hnext : middle.Stays after) : peer.Stays after :=
  ⟨h.continues.trans hnext.continues, hnext.known.trans h.known⟩

/-! ## Queueing -/

theorem queueAcknowledgement_known (peer : Peer) (command : Command) (sentTime : Stamp) :
    (peer.queueAcknowledgement command sentTime).known = peer.known := by
  obtain ⟨_, _, heq, -⟩ := peer.queueAcknowledgement_eq command sentTime
  rw [heq]
  rfl

/-! ## Requests -/

theorem send_stays {channel : UInt8} {packet : Packet} (h : peer.send channel packet = .ok after) :
    peer.Stays after := ⟨.single (.send h), (send_enqueues h).known⟩

theorem ping_stays (peer : Peer) : peer.Stays peer.ping := ⟨.single .ping, peer.ping_enqueues.known⟩

theorem configureThrottle_stays (peer : Peer) (parameters : ThrottleParameters) :
    peer.Stays (peer.configureThrottle parameters) :=
  ⟨.single (.configureThrottle parameters), (queueControl_enqueues _ _).known⟩

theorem disconnect_stays (peer : Peer) : peer.Stays peer.disconnect.2 :=
  ⟨.single .disconnect, peer.disconnect_leaves.known⟩

theorem disconnectNow_stays (peer : Peer) : peer.Stays peer.disconnectNow.2 :=
  ⟨.single .disconnectNow, peer.disconnectNow_leaves.known⟩

/-! ## The work of the host -/

theorem compose_stays {now : Stamp} {check : Bool}
    (h : (peer.compose now check).1 ≠ .ok .timedOut) :
    peer.Stays (peer.compose now check).2 := by
  refine ⟨.single (.compose h), ?_⟩
  by_cases halive : peer.state = .disconnected
  · rw [compose, halive]
    rfl
  · have hafter := (Step.compose h).alive halive
    obtain ⟨commands, hcomposes, -⟩ := (peer.compose_composes now check).resolve_left hafter
    exact hcomposes.known

theorem receiveAny_stays (peer : Peer) : peer.Stays peer.receiveAny.2 := ⟨.single .receiveAny, rfl⟩

theorem setThrottleLimit_stays (peer : Peer) (limit : UInt32) :
    peer.Stays (peer.setThrottleLimit limit) := ⟨.single (.setThrottleLimit limit), rfl⟩

theorem announceBandwidth_stays (peer : Peer) (incoming outgoing : UInt32) :
    peer.Stays (peer.announceBandwidth incoming outgoing) :=
  ⟨.single (.announceBandwidth incoming outgoing), (queueControl_enqueues _ _).known⟩

theorem markEpochs_stays (peer : Peer) (incoming outgoing : Stamp) :
    peer.Stays (peer.markEpochs incoming outgoing) := ⟨.single (.markEpochs incoming outgoing), rfl⟩

theorem resetTotals_stays (peer : Peer) : peer.Stays peer.resetTotals :=
  ⟨.single .resetTotals, rfl⟩

/-! ## Handling -/

/-- A connection is granted to the address that asks for it, under the challenge of the header. -/
theorem accept_known {address : Address} {header : Header} {command : Command}
    {offer : Handshake} {context : Context}
    (h : peer.accept address header command offer context = .ok after) :
    after.known = (some address, header.challenge) := by
  obtain ⟨mtu, window, answered, -, -, -, rfl⟩ := accept_eq h
  rw [queueAcknowledgement_known]
  exact (queueControl_enqueues _ _).known

theorem TakesAcknowledgement.known {channel : UInt8} {sequence : UInt32} {sentTime : Stamp}
    {context : Context} {event : Option PeerEvent}
    (h : peer.TakesAcknowledgement channel sequence sentTime context event after) :
    after.state = .disconnected ∨ after.known = peer.known := by
  have hknown : ((peer.heard sentTime context).removeSent sequence channel).2.known =
      peer.known := by
    obtain ⟨_, _, _, _, hremoved, -⟩ := (peer.heard sentTime context).removeSent_eq sequence channel
    rw [hremoved]
    rfl
  cases h with
  | early => exact .inr rfl
  | confirmed | noted => exact .inr hknown
  | departed => exact .inl rfl

theorem removeConnect_known (peer : Peer) : peer.removeConnect.known = peer.known := by
  obtain ⟨_, _, _, _, hremoved⟩ := peer.removeConnect_eq
  rw [hremoved]
  rfl

theorem TakesGrant.known {answer : Handshake} {handled : Handled}
    (h : peer.TakesGrant answer handled) : handled.peer.known = peer.known := by
  cases h with
  | unasked | refused => rfl
  | granted => exact peer.removeConnect_known

theorem handleDisconnect_known (peer : Peer) (confirm : Bool) :
    (peer.handleDisconnect confirm).state = .disconnected ∨
      (peer.handleDisconnect confirm).known = peer.known := by
  unfold handleDisconnect
  split
  · exact .inr rfl
  · exact .inr rfl
  · exact .inr rfl
  · exact .inr rfl
  · exact .inl rfl

theorem perform_known {command : Command} {context : Context} {handled : Handled}
    (h : peer.perform command context = .ok handled) :
    handled.peer.state = .disconnected ∨ handled.peer.known = peer.known := by
  cases obeys_of_perform h with
  | nothing | refused | taken | limited | throttled => exact .inr rfl
  | acknowledged _ htakes => exact htakes.known
  | answered _ hgrant => exact .inr hgrant.known
  | left => exact peer.handleDisconnect_known _

/-- A received command leaves the connection known by the same address and challenge, unless it
ends it. -/
theorem handle_stays {header : Header} {command : Command} {context : Context}
    {event : Option PeerEvent} (h : peer.handle header command context = .ok (event, after))
    (hevent : event ≠ some .disconnected) (hstate : after.state ≠ .disconnected) :
    peer.Stays after := by
  refine ⟨.single (.handle h hevent hstate), ?_⟩
  obtain ⟨handled, hperform, -, rfl | ⟨-, -, rfl⟩⟩ := handle_eq_ok h
  · exact (perform_known hperform).resolve_left hstate
  · rw [queueAcknowledgement_state] at hstate
    exact (queueAcknowledgement_known ..).trans ((perform_known hperform).resolve_left hstate)

end Peer

end ReliableDatagram
