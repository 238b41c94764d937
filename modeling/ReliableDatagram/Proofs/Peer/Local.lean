import ReliableDatagram.Proofs.Peer.Lifecycle
import ReliableDatagram.Proofs.Peer.Operations
import ReliableDatagram.Proofs.Peer.Persistence

/-!
# What becomes of a connection while nothing arrives

While no datagram arrives, a connection is changed by what its application asks for and by the
work of its host: sending, delivering and sharing the bandwidth. It keeps its slot then, and it
is taken further or left where it stands. But it neither comes to stand, since that takes an
answer of the other end, nor is it over, unless it is given up and leaves its slot.
-/

namespace ReliableDatagram

namespace Peer

variable {peer middle after : Peer}

/-- An operation on a peer that takes nothing from the network and after which the connection
goes on. -/
inductive LocalStep (peer : Peer) : Peer → Prop where
  | compose {now : Stamp} {check : Bool} (hcompose : (peer.compose now check).1 ≠ .ok .timedOut) :
      LocalStep peer (peer.compose now check).2
  | send {channel : UInt8} {packet : Packet} {after : Peer}
      (hsend : peer.send channel packet = .ok after) : LocalStep peer after
  | receiveAny : LocalStep peer peer.receiveAny.2
  | ping : LocalStep peer peer.ping
  | configureThrottle (parameters : ThrottleParameters) :
      LocalStep peer (peer.configureThrottle parameters)
  | disconnect : LocalStep peer peer.disconnect.2
  | disconnectNow : LocalStep peer peer.disconnectNow.2
  | setThrottleLimit (limit : UInt32) : LocalStep peer (peer.setThrottleLimit limit)
  | announceBandwidth (incoming outgoing : UInt32) :
      LocalStep peer (peer.announceBandwidth incoming outgoing)
  /-- It is noted when the shares were settled. -/
  | markEpochs (incoming outgoing : Stamp) : LocalStep peer (peer.markEpochs incoming outgoing)
  | resetTotals : LocalStep peer peer.resetTotals

/-- The connection has gone on from one state of the peer to the other while nothing arrived. -/
abbrev LocalRun (peer after : Peer) : Prop := Relation.ReflTransGen LocalStep peer after

theorem LocalStep.stays (h : LocalStep peer after) : peer.Stays after := by
  cases h with
  | compose hcompose => exact compose_stays hcompose
  | send hsend => exact send_stays hsend
  | receiveAny => exact peer.receiveAny_stays
  | ping => exact peer.ping_stays
  | configureThrottle parameters => exact peer.configureThrottle_stays parameters
  | disconnect => exact peer.disconnect_stays
  | disconnectNow => exact peer.disconnectNow_stays
  | setThrottleLimit limit => exact peer.setThrottleLimit_stays limit
  | announceBandwidth incoming outgoing => exact peer.announceBandwidth_stays incoming outgoing
  | markEpochs incoming outgoing => exact peer.markEpochs_stays incoming outgoing
  | resetTotals => exact peer.resetTotals_stays

theorem LocalRun.stays (h : peer.LocalRun after) : peer.Stays after := by
  induction h with
  | refl => exact .refl peer
  | tail _ hstep ih => exact ih.trans hstep.stays

/-- The connection keeps its slot: it is taken further or left where it stands, and it is not over
if it was not. -/
structure KeepsSlot (peer after : Peer) : Prop where
  id : after.id = peer.id
  leads : peer.state.LeadsTo after.state
  alive : after.state = .disconnected → peer.state = .disconnected

theorem KeepsSlot.of_state (hid : after.id = peer.id) (hstate : after.state = peer.state) :
    peer.KeepsSlot after where
  id := hid
  leads := .inl hstate
  alive h := hstate.symm.trans h

theorem KeepsSlot.trans (h : peer.KeepsSlot middle) (hnext : middle.KeepsSlot after) :
    peer.KeepsSlot after where
  id := hnext.id.trans h.id
  leads := h.leads.trans hnext.leads
  alive hafter := h.alive (hnext.alive hafter)

/-- The connection keeps its slot and does not come to stand there. -/
structure KeepsUnconnected (peer after : Peer) : Prop extends KeepsSlot peer after where
  connected : after.state = .connected → peer.state = .connected

theorem KeepsUnconnected.of_state (hid : after.id = peer.id) (hstate : after.state = peer.state) :
    peer.KeepsUnconnected after where
  toKeepsSlot := .of_state hid hstate
  connected h := hstate.symm.trans h

theorem KeepsUnconnected.refl (peer : Peer) : peer.KeepsUnconnected peer := .of_state rfl rfl

theorem KeepsUnconnected.trans (h : peer.KeepsUnconnected middle)
    (hnext : middle.KeepsUnconnected after) : peer.KeepsUnconnected after where
  toKeepsSlot := h.toKeepsSlot.trans hnext.toKeepsSlot
  connected hafter := h.connected (hnext.connected hafter)

theorem compose_keepsUnconnected {now : Stamp} {check : Bool}
    (h : (peer.compose now check).1 ≠ .ok .timedOut) :
    peer.KeepsUnconnected (peer.compose now check).2 where
  id := congrArg Terms.id (peer.terms_compose now check h)
  leads := (peer.compose_proceeds now check).leads
  connected hafter := by
    obtain ⟨-, hsame | hzombie⟩ :=
      (peer.compose_state now check).resolve_left fun hover ↦ h hover.1
    · exact hsame.symm.trans hafter
    · rw [hzombie] at hafter
      cases hafter
  alive hafter := by
    by_contra halive
    exact (Step.compose h).alive halive hafter

theorem disconnect_keepsUnconnected (peer : Peer) : peer.KeepsUnconnected peer.disconnect.2 where
  id := congrArg Terms.id peer.disconnect_leaves.terms
  leads := peer.disconnect_proceeds.leads
  connected hafter := by
    by_contra hstate
    rw [peer.disconnect_state hstate] at hafter
    exact hstate hafter
  alive hafter := by
    by_contra halive
    exact Step.disconnect.alive halive hafter

theorem LocalStep.keepsUnconnected (h : LocalStep peer after) : peer.KeepsUnconnected after := by
  cases h with
  | compose hcompose => exact compose_keepsUnconnected hcompose
  | send hsend => exact .of_state (congrArg Terms.id (terms_send hsend)) (send_state hsend)
  | receiveAny => exact .of_state rfl rfl
  | ping => exact .of_state (congrArg Terms.id peer.terms_ping) peer.ping_state
  | configureThrottle parameters =>
    exact .of_state (congrArg Terms.id (terms_queueControl ..)) (queueControl_state ..)
  | disconnect => exact peer.disconnect_keepsUnconnected
  | disconnectNow =>
    exact .of_state (congrArg Terms.id peer.disconnectNow_leaves.terms) peer.disconnectNow_state
  | setThrottleLimit limit => exact .of_state rfl rfl
  | announceBandwidth incoming outgoing =>
    exact .of_state (congrArg Terms.id (terms_queueControl ..)) (queueControl_state ..)
  | markEpochs incoming outgoing => exact .of_state rfl rfl
  | resetTotals => exact .of_state rfl rfl

/-- Whatever its host does with a connection, it does not come to stand while nothing arrives. -/
theorem LocalRun.keepsUnconnected (h : peer.LocalRun after) : peer.KeepsUnconnected after := by
  induction h with
  | refl => exact .refl peer
  | tail _ hstep ih => exact ih.trans hstep.keepsUnconnected

/-- A connection that does not stand and has nothing to confirm stays where it is. -/
theorem LocalStep.state_of_confirmed (h : peer.LocalStep after)
    (hconfirmed : peer.acknowledgements = []) (hstate : peer.state ≠ .connected) :
    after.acknowledgements = [] ∧ after.state = peer.state := by
  have hcontrol (other : Peer) (body : Body) (hother : other.acknowledgements = []) :
      (other.queueControl body).acknowledgements = [] ∧
        (other.queueControl body).state = other.state := by
    rw [queueControl_eq]
    exact ⟨hother, rfl⟩
  have hfarewell : (peer.clearQueues.queueCommand (.unnumbered .disconnect controlChannel
      Command.unsequencedFlag)).acknowledgements = [] := by
    obtain ⟨-, -, -, -, hsame, -⟩ := peer.clearQueues.queueCommand_queues
      (.unnumbered .disconnect controlChannel Command.unsequencedFlag)
    exact hsame
  cases h with
  | compose hcompose =>
    obtain ⟨hover, -⟩ | ⟨-, commands, hdraws, -⟩ := peer.compose_draws _ _ hstate
    · exact absurd hover hcompose
    · refine ⟨?_, hdraws.state.resolve_right ?_⟩
      · have hnone := hdraws.acknowledgements
        rw [hconfirmed] at hnone
        exact List.subset_nil.mp hnone
      · rintro ⟨-, acknowledgement, hmem, -⟩
        rw [hconfirmed] at hmem
        cases hmem
  | send hsend => exact absurd (send_eq_ok_iff.mp hsend).1 hstate
  | receiveAny => exact ⟨hconfirmed, rfl⟩
  | ping =>
    rw [Peer.ping, if_neg hstate]
    exact ⟨hconfirmed, rfl⟩
  | configureThrottle parameters => exact hcontrol _ _ hconfirmed
  | disconnect =>
    refine ⟨?_, peer.disconnect_state hstate⟩
    unfold Peer.disconnect
    split
    · exact hconfirmed
    · exact hfarewell
  | disconnectNow =>
    refine ⟨?_, peer.disconnectNow_state⟩
    unfold Peer.disconnectNow
    split
    · exact hconfirmed
    · exact hfarewell
  | setThrottleLimit limit => exact ⟨hconfirmed, rfl⟩
  | announceBandwidth incoming outgoing => exact hcontrol _ _ hconfirmed
  | markEpochs incoming outgoing => exact ⟨hconfirmed, rfl⟩
  | resetTotals => exact ⟨hconfirmed, rfl⟩

theorem LocalRun.state_of_confirmed (h : peer.LocalRun after)
    (hconfirmed : peer.acknowledgements = []) (hstate : peer.state ≠ .connected) :
    after.state = peer.state := by
  suffices h : after.acknowledgements = [] ∧ after.state = peer.state from h.2
  induction h with
  | refl => exact ⟨hconfirmed, rfl⟩
  | tail _ hstep ih =>
    obtain ⟨hnone, hsame⟩ := ih
    obtain ⟨hlast, hstill⟩ := hstep.state_of_confirmed hnone (hsame ▸ hstate)
    exact ⟨hlast, hstill.trans hsame⟩

/-- Taking a packet from a channel leaves the connection where it stands. -/
theorem receive_keepsUnconnected (peer : Peer) (channel : UInt8) :
    peer.KeepsUnconnected (peer.receive channel).2 := by
  unfold receive
  split <;> exact .of_state rfl rfl

end Peer

end ReliableDatagram
