import ReliableDatagram.Proofs.Peer.Reception
import Mathlib.Logic.Relation

/-!
# How a connection goes on

Between its beginning and its end a connection is changed by nothing but the operations of its
peer. One that stands, or is being left by either end, can end in two ways only: by the
confirmation of a departure that this end has begun, or by being given up while overdue
commands are looked for.
-/

namespace ReliableDatagram

namespace PeerState

/-- The handshake is complete, and the end of the connection has not been reported. -/
def isStanding (state : PeerState) : Bool :=
  match state with
  | .connected | .disconnecting | .acknowledgingDisconnect | .zombie => true
  | _ => false

end PeerState

namespace Peer

variable {peer after : Peer}

/-- An operation of a peer after which the connection goes on. -/
inductive Step (peer : Peer) : Peer → Prop where
  | handle {header : Header} {command : Command} {context : Context} {event : Option PeerEvent}
      {after : Peer} (hhandle : peer.handle header command context = .ok (event, after))
      (hevent : event ≠ some .disconnected) (hstate : after.state ≠ .disconnected) :
      Step peer after
  /-- A datagram is composed, if there is anything to send. -/
  | compose {now : Stamp} {check : Bool}
      (hcompose : (peer.compose now check).1 ≠ .ok .timedOut) :
      Step peer (peer.compose now check).2
  | send {channel : UInt8} {packet : Packet} {after : Peer}
      (hsend : peer.send channel packet = .ok after) : Step peer after
  | receiveAny : Step peer peer.receiveAny.2
  | ping : Step peer peer.ping
  | configureThrottle (parameters : ThrottleParameters) :
      Step peer (peer.configureThrottle parameters)
  | disconnect : Step peer peer.disconnect.2
  /-- This end leaves without waiting. -/
  | disconnectNow : Step peer peer.disconnectNow.2
  | relocate (address : Address) : Step peer (peer.relocate address)
  | recordReceived (length : Nat) : Step peer (peer.recordReceived length)
  | setThrottleLimit (limit : UInt32) : Step peer (peer.setThrottleLimit limit)
  | announceBandwidth (incoming outgoing : UInt32) :
      Step peer (peer.announceBandwidth incoming outgoing)
  /-- It is noted when the shares were settled. -/
  | markEpochs (incoming outgoing : Stamp) : Step peer (peer.markEpochs incoming outgoing)
  | resetTotals : Step peer peer.resetTotals

/-- The connection has gone on from one state of the peer to the other. -/
abbrev Continues (peer after : Peer) : Prop := Relation.ReflTransGen Step peer after

/-! ## States -/

theorem queueControl_state (peer : Peer) (body : Body) :
    (peer.queueControl body).state = peer.state := (peer.queueControl_enqueues body).state

theorem send_state {channel : UInt8} {packet : Packet} (h : peer.send channel packet = .ok after) :
    after.state = peer.state := (send_enqueues h).state

theorem queueAcknowledgement_state (peer : Peer) (command : Command) (sentTime : Stamp) :
    (peer.queueAcknowledgement command sentTime).state = peer.state := by
  obtain ⟨_, _, heq, -⟩ := peer.queueAcknowledgement_eq command sentTime
  rw [heq]

theorem ping_state (peer : Peer) : peer.ping.state = peer.state := peer.ping_enqueues.state

/-- Leaving a connection that stands waits for the confirmation. -/
theorem disconnect_of_connected (h : peer.state = .connected) :
    peer.disconnect.1 = false ∧ peer.disconnect.2.state = .disconnecting := by
  have hleave : peer.canLeave = true := by
    rw [canLeave, h]
  unfold disconnect
  rw [hleave, Bool.not_true, if_neg Bool.false_ne_true, if_pos h]
  exact ⟨rfl, rfl⟩

theorem disconnect_state (peer : Peer) (h : peer.state ≠ .connected) :
    peer.disconnect.2.state = peer.state := by
  unfold disconnect
  split
  · rfl
  · exact (peer.clearQueues.queueCommand_enqueues _).state

theorem disconnectNow_state (peer : Peer) : peer.disconnectNow.2.state = peer.state := by
  unfold disconnectNow
  split
  · rfl
  · exact (peer.clearQueues.queueCommand_enqueues _).state

/-! ## Handled commands -/

/-- What handling a command can do to the state of a connection, and what it reports. -/
inductive Turns : PeerState → Option PeerEvent → PeerState → Prop where
  | same {state : PeerState} : Turns state none state
  /-- The initiator has confirmed the connection. -/
  | confirmed : Turns .acknowledgingConnect (some .connected) .connected
  | granted : Turns .connecting (some .connected) .connected
  /-- The connection was granted on other terms. -/
  | refused : Turns .connecting none .zombie
  /-- The other end has confirmed the departure of this one. -/
  | departed {state : PeerState} : Turns .disconnecting (some .disconnected) state
  /-- Both ends leave. -/
  | crossed : Turns .disconnecting none .zombie
  /-- The other end leaves and waits for the confirmation. -/
  | left : Turns .connected none .acknowledgingDisconnect
  /-- The other end has left. -/
  | gone : Turns .connected none .zombie
  | aborted {state : PeerState} (hstate : state.isStanding = false) : Turns state none .disconnected

theorem TakesAcknowledgement.turns {channel : UInt8} {sequence : UInt32} {sentTime : Stamp}
    {context : Context} {event : Option PeerEvent}
    (h : peer.TakesAcknowledgement channel sequence sentTime context event after) :
    Turns peer.state event after.state := by
  cases h with
  | early => exact .same
  | confirmed _ hstate =>
    rw [hstate]
    exact .confirmed
  | departed _ hstate =>
    rw [hstate]
    exact .departed
  | noted =>
    rw [removeSent_heard_state]
    exact .same

theorem TakesGrant.turns {answer : Handshake} {handled : Handled}
    (h : peer.TakesGrant answer handled) :
    Turns peer.state handled.event handled.peer.state := by
  cases h with
  | unasked => exact .same
  | refused hconnecting =>
    rw [hconnecting]
    exact .refused
  | granted hconnecting =>
    rw [hconnecting]
    exact .granted

theorem handleDisconnect_turns (peer : Peer) (confirm : Bool) :
    Turns peer.state none (peer.handleDisconnect confirm).state := by
  unfold handleDisconnect
  split
  · exact .same
  · exact .same
  · rename_i hstate
    rw [hstate]
    exact .crossed
  · rename_i hstate
    rw [hstate]
    cases confirm with
    | true => exact .left
    | false => exact .gone
  · apply Turns.aborted
    unfold PeerState.isStanding
    split
    all_goals first | rfl | contradiction

theorem perform_turns {command : Command} {context : Context} {handled : Handled}
    (h : peer.perform command context = .ok handled) :
    Turns peer.state handled.event handled.peer.state := by
  cases obeys_of_perform h with
  | nothing | refused | taken | limited | throttled => exact .same
  | acknowledged _ htakes => exact htakes.turns
  | answered _ hgrant => exact hgrant.turns
  | left => exact handleDisconnect_turns ..

theorem handle_turns {header : Header} {command : Command} {context : Context}
    {event : Option PeerEvent} (h : peer.handle header command context = .ok (event, after)) :
    Turns peer.state event after.state := by
  obtain ⟨handled, hperform, rfl, rfl | ⟨-, -, rfl⟩⟩ := handle_eq_ok h
  · exact perform_turns hperform
  · rw [queueAcknowledgement_state]
    exact perform_turns hperform

/-! ## Standing connections -/

/-- A connection that stands goes on standing. -/
theorem Step.isStanding (h : Step peer after) (hstanding : peer.state.isStanding = true) :
    after.state.isStanding = true := by
  cases h with
  | handle hhandle hevent hstate =>
    have hturns := handle_turns hhandle
    generalize peer.state = state at hstanding hturns
    generalize after.state = next at hstate hturns ⊢
    cases hturns with
    | same => exact hstanding
    | departed => exact absurd rfl hevent
    | aborted => exact absurd rfl hstate
    | _ => rfl
  | @compose now check hcompose =>
    rcases peer.compose_state now check with ⟨hover, -⟩ | ⟨-, hsame | hzombie⟩
    · exact absurd hover hcompose
    · rw [hsame]
      exact hstanding
    · rw [hzombie]
      rfl
  | send hsend =>
    rw [send_state hsend]
    exact hstanding
  | disconnect =>
    by_cases hconnected : peer.state = .connected
    · rw [(disconnect_of_connected hconnected).2]
      rfl
    · rw [disconnect_state peer hconnected]
      exact hstanding
  | disconnectNow =>
    rw [disconnectNow_state]
    exact hstanding
  | ping =>
    rw [ping_state]
    exact hstanding
  | configureThrottle parameters =>
    rw [Peer.configureThrottle, queueControl_state]
    exact hstanding
  | announceBandwidth incoming outgoing =>
    rw [Peer.announceBandwidth, queueControl_state]
    exact hstanding
  | receiveAny => exact hstanding
  | relocate address => exact hstanding
  | recordReceived length => exact hstanding
  | setThrottleLimit limit => exact hstanding
  | markEpochs incoming outgoing => exact hstanding
  | resetTotals => exact hstanding

theorem Continues.isStanding (h : Continues peer after)
    (hstanding : peer.state.isStanding = true) : after.state.isStanding = true := by
  induction h with
  | refl => exact hstanding
  | tail _ hstep ih => exact hstep.isStanding ih

end Peer

end ReliableDatagram
