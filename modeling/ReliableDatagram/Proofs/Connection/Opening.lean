import ReliableDatagram.Proofs.Connection.Traffic

/-!
# How a connection begins

Until both ends know of the connection, nothing but control commands is queued or sent,
nothing was submitted or delivered, and all channels are fresh. The end that asked for the
connection has nothing to acknowledge; the end that grants it acknowledges the request.
-/

namespace ReliableDatagram

open Submission

namespace End

/-- Nothing has happened on any channel, and only control commands were sent. -/
structure Quiet (e : End) : Prop where
  submitted : e.submitted = []
  delivered : ∀ lane, e.delivered lane = []
  channels : ∀ lane, e.channel lane = {}
  unreliable : e.peer.unreliable = []
  outstanding : ∀ command ∈ e.peer.outstanding, command.Controls
  composed : ∀ datagram ∈ e.composed, ∀ header commands,
    Datagram.Reads e.peer.settings.checksums datagram header commands →
      ∀ command ∈ commands, command.Controls

/-- The end waits for an answer to its request. -/
structure Asks (e : End) : Prop extends Quiet e where
  state : e.peer.state = .connecting
  acknowledgements : e.peer.acknowledgements = []

variable {e after : End}

theorem Quiet.log_eq (h : e.Quiet) (lane : UInt8) : e.log lane = [] := by
  rw [log, h.submitted]
  rfl

theorem Quiet.orderly (h : e.Quiet) : e.Orderly where
  numbered lane := by
    rw [h.log_eq]
    exact Numbered.nil
  data := by
    rw [h.submitted]
    simp
  reliableCounter lane := by
    rw [h.channels, h.log_eq]
    rfl
  unreliableCounter lane := by
    rw [h.channels, h.log_eq]
    rfl
  outstanding command hcommand := .inl (h.outstanding command hcommand)
  unreliable := by
    rw [h.unreliable]
    simp
  composed datagram hdatagram header commands hreads command hcommand :=
    .inr (.control (h.composed datagram hdatagram header commands hreads command hcommand))

theorem Asks.compose (h : e.Asks) {now : Stamp} {check : Bool}
    (hunderWay : (e.compose now check).peer.state.isUnderWay = true) :
    (e.compose now check).Asks := by
  obtain ⟨commands, hcomposes, hsubmitted, htaken, hreads⟩ := compose_of_isUnderWay hunderWay
  have hping (command : Command)
      (hcommand : command.channel = controlChannel ∧ command.body = .ping) :
      command.Controls := by
    refine ⟨hcommand.1, ?_⟩
    rw [Command.tag, hcommand.2]
    rfl
  refine {
    submitted := by rw [hsubmitted, h.submitted]
    delivered := fun lane ↦ by rw [End.delivered, htaken]; exact h.delivered lane
    channels := fun lane ↦ by rw [channel_congr hcomposes.channels, h.channels]
    unreliable := ?_
    outstanding := ?_
    composed := ?_
    state := ?_
    acknowledgements := ?_ }
  · have hsubset := hcomposes.unreliable
    rw [h.unreliable] at hsubset
    exact List.subset_nil.mp hsubset
  · intro command hcommand
    rcases hcomposes.outstanding command hcommand with hold | hnew
    · exact h.outstanding command hold
    · exact hping command hnew
  · intro datagram hdatagram header others hothers
    rcases hreads datagram hdatagram header others hothers with ⟨hold, hsame⟩ | rfl
    · exact h.composed datagram hold header others hsame
    · intro command hcommand
      rcases hcomposes.drawn command hcommand with ⟨acknowledgement, hmem, -⟩ |
        ⟨outgoing, hmem, -⟩ | hmem | hnew
      · rw [h.acknowledgements] at hmem
        cases hmem
      · rw [h.unreliable] at hmem
        cases hmem
      · exact h.outstanding command hmem
      · exact hping command hnew
  · rcases hcomposes.state with hsame | hzombie
    · rw [hsame, h.state]
    · rw [hzombie] at hunderWay
      cases hunderWay
  · have hsubset := hcomposes.acknowledgements
    rw [h.acknowledgements] at hsubset
    exact List.subset_nil.mp hsubset

theorem Asks.receive (h : e.Asks) (lane : UInt8) : (e.receive lane).Asks := by
  obtain ⟨⟨channels, hpeer, -⟩, hsubmitted, hcomposed, hchannel, hdelivered⟩ := e.receive_eq lane
  have hfresh : (e.channel lane).receive = (none, {}) := by
    rw [h.channels]
    rfl
  refine {
    submitted := by rw [hsubmitted, h.submitted]
    delivered := fun other ↦ ?_
    channels := fun other ↦ ?_
    unreliable := by rw [hpeer]; exact h.unreliable
    outstanding := by rw [hpeer]; exact h.outstanding
    composed := by rw [hcomposed, hpeer]; exact h.composed
    state := by rw [hpeer]; exact h.state
    acknowledgements := by rw [hpeer]; exact h.acknowledgements }
  · rw [hdelivered, h.delivered, hfresh]
    split <;> rfl
  · rw [hchannel, hfresh, h.channels]
    split <;> rfl

/-- An end that nothing reaches keeps waiting. -/
theorem Asks.step (h : e.Asks) (hstep : Step false [] e after) (hafter : after.Fits) :
    after.Asks := by
  cases hstep with
  | submit hsend =>
    have hstate := (Peer.send_frame hsend).1
    rw [h.state] at hstate
    cases hstate
  | compose => exact h.compose hafter.underWay
  | arrive hdatagram => cases hdatagram
  | receive => exact h.receive _

theorem Asks.steps (h : e.Asks) (hsteps : Relation.ReflTransGen (Step false []) e after)
    (hafter : after.Fits) : after.Asks := by
  induction hsteps with
  | refl => exact h
  | tail _ hstep ih => exact (ih (hstep.fits hafter).1).step hstep hafter

/-! ## Asking and granting -/

theorem channel_replicate {e : End} {count : Nat} (h : e.peer.channels = List.replicate count {})
    (lane : UInt8) : e.channel lane = {} := by
  rw [channel, Peer.channel?, h, List.getElem?_replicate]
  split <;> rfl

/-- An end that has queued one control command on fresh channels is quiet. -/
theorem quiet_queueControl {peer : Peer} {count : Nat} {body : Body}
    (hchannels : peer.channels = List.replicate count {}) (hunreliable : peer.unreliable = [])
    (hsent : peer.sent = []) (hreliable : peer.reliable = [])
    (hbody : body.tag.carriesPayload = false) : Quiet { peer := peer.queueControl body } := by
  rw [Peer.queueControl_eq]
  refine {
    submitted := rfl
    delivered := fun _ ↦ rfl
    channels := channel_replicate hchannels
    unreliable := hunreliable
    outstanding := ?_
    composed := by simp }
  intro command hcommand
  rw [Peer.mem_outstanding] at hcommand
  simp only [hsent, hreliable, List.map_nil, List.not_mem_nil, false_or, List.nil_append,
    List.map_singleton, List.mem_singleton] at hcommand
  rw [hcommand]
  exact ⟨rfl, hbody⟩

end End

namespace Peer

variable {peer : Peer} {address : Address} {context : Context}

theorem connect_asks {slot : Peer} {count : Nat} {challenge : UInt32}
    (h : slot.connect address count challenge context = .ok peer) :
    End.Asks { peer := peer } := by
  obtain ⟨count, window, -, -, rfl⟩ := connect_eq h
  refine { End.quiet_queueControl rfl rfl rfl rfl rfl with
    state := ?_
    acknowledgements := ?_ } <;>
  rw [queueControl_eq]
  all_goals rfl

theorem quiet_queueAcknowledgement {command : Command} {sentTime : Stamp}
    (h : End.Quiet { peer := peer }) :
    End.Quiet { peer := peer.queueAcknowledgement command sentTime } := by
  obtain ⟨_, _, heq, -⟩ := peer.queueAcknowledgement_eq command sentTime
  rw [heq]
  exact { h with }

theorem accept_quiet {slot : Peer} {header : Header} {command : Command} {offer : Handshake}
    (h : slot.accept address header command offer context = .ok peer) :
    End.Quiet { peer := peer } ∧
      ∀ acknowledgement ∈ peer.acknowledgements, acknowledgement.channel = command.channel := by
  obtain ⟨mtu, window, answered, -, -, -, rfl⟩ := accept_eq h
  refine ⟨quiet_queueAcknowledgement (End.quiet_queueControl rfl rfl rfl rfl rfl), ?_⟩
  rw [queueControl_eq]
  intro acknowledgement hmem
  obtain ⟨_, _, heq, hwaiting⟩ := queueAcknowledgement_eq _ command header.sentTime
  rw [heq] at hmem
  rcases hwaiting acknowledgement hmem with hmem | ⟨-, rfl⟩
  · cases hmem
  · rfl

end Peer

namespace Connection

/-- At its beginning one end of a connection waits for the answer, and the other one is quiet
and acknowledges at most the request. -/
theorem Opens.quiet {connection : Connection} (h : Opens connection)
    (hfits : connection.near.Fits) : connection.near.Asks ∧ connection.far.Quiet ∧
      ∀ acknowledgement ∈ connection.far.peer.acknowledgements,
        acknowledgement.channel = controlChannel := by
  cases h with
  | intro hconnect halone hdatagram hreads hcommand hbody haccept =>
    have hasks := (Peer.connect_asks hconnect).steps halone hfits
    obtain ⟨hquiet, hacknowledgements⟩ := Peer.accept_quiet haccept
    refine ⟨hasks, hquiet, fun acknowledgement hmem ↦ ?_⟩
    rw [hacknowledgements acknowledgement hmem]
    exact (hasks.composed _ hdatagram _ _ hreads _ hcommand).1

end Connection

end ReliableDatagram
