import ReliableDatagram.Peer.Submission
import ReliableDatagram.Proofs.Peer.Continuation
import ReliableDatagram.Proofs.Peer.Flow

/-!
# The life of a connection

A connection comes from the handshake to data, from there to the departure of one end, and
ends. Whatever is asked of the peer and whatever arrives, this order is never left: a
connection stays where it stands or comes further. Its beginning and the confirmation of its
departure are each reported when they happen, and so at most once; and a connection that is
over sends nothing any more.
-/

namespace ReliableDatagram

namespace PeerState

/-- How far a connection has come: the handshake, the connection itself, its departure, its
end, and nothing left of it. -/
def stage (state : PeerState) : Nat :=
  match state with
  | .connecting | .acknowledgingConnect => 0
  | .connected => 1
  | .disconnecting | .acknowledgingDisconnect => 2
  | .zombie => 3
  | .disconnected => 4

theorem isActive_eq (state : PeerState) : state.isActive = decide (state.stage < 3) := by
  cases state <;> rfl

/-- The connection stands where it stood, or has come further. -/
def LeadsTo (state next : PeerState) : Prop := next = state ∨ state.stage < next.stage

theorem LeadsTo.refl (state : PeerState) : state.LeadsTo state := .inl rfl

theorem LeadsTo.stage_le {state next : PeerState} (h : state.LeadsTo next) :
    state.stage ≤ next.stage := by
  rcases h with rfl | hfurther
  · exact Nat.le_refl _
  · exact Nat.le_of_lt hfurther

theorem LeadsTo.trans {state middle next : PeerState} (h : state.LeadsTo middle)
    (hmore : middle.LeadsTo next) : state.LeadsTo next := by
  rcases hmore with rfl | hfurther
  · exact h
  · exact .inr (Nat.lt_of_le_of_lt h.stage_le hfurther)

/-- Nothing comes behind the end of a connection. -/
theorem leadsTo_disconnected (state : PeerState) : state.LeadsTo .disconnected := by
  cases state <;> first | exact .inl rfl | exact .inr (by decide)

end PeerState

namespace Peer

/-! ## Actions -/

inductive Action where
  | connect (address : Address) (channelCount : Nat) (challenge : UInt32) (context : Context)
  | accept (address : Address) (header : Header) (command : Command) (offer : Handshake)
      (context : Context)
  | reset
  | send (channel : UInt8) (packet : Packet)
  | ping
  | configureThrottle (parameters : ThrottleParameters)
  | announceBandwidth (incoming outgoing : UInt32)
  | disconnect
  | disconnectNow
  | receive (channel : UInt8)
  | receiveAny
  | compose (now : Stamp) (check : Bool)
  | handle (header : Header) (command : Command) (context : Context)

def Action.begins : Action → Bool
  | .connect .. | .accept .. | .reset => true
  | _ => false

/-- What an action reports and makes of a peer. A packet that is refused changes nothing. -/
def act (peer : Peer) : Action → Except Fault (Option PeerEvent × Peer)
  | .connect address channelCount challenge context => do
    return (none, ← peer.connect address channelCount challenge context)
  | .accept address header command offer context => do
    return (none, ← peer.accept address header command offer context)
  | .reset => .ok (none, peer.reset)
  | .send channel packet =>
    match peer.send channel packet with
    | .error _ => .ok (none, peer)
    | .ok after => .ok (none, after)
  | .ping => .ok (none, peer.ping)
  | .configureThrottle parameters => .ok (none, peer.configureThrottle parameters)
  | .announceBandwidth incoming outgoing => .ok (none, peer.announceBandwidth incoming outgoing)
  | .disconnect => .ok (none, peer.disconnect.2)
  | .disconnectNow => .ok (none, peer.disconnectNow.2)
  | .receive channel => .ok (none, (peer.receive channel).2)
  | .receiveAny => .ok (none, peer.receiveAny.2)
  | .compose now check => .ok (none, (peer.compose now check).2)
  | .handle header command context => peer.handle header command context

/-- What some actions, one after the other, report and make of a peer. -/
def run (peer : Peer) : List Action → Except Fault (List PeerEvent × Peer)
  | [] => .ok ([], peer)
  | action :: rest => do
    let (event, middle) ← peer.act action
    let (events, after) ← middle.run rest
    return (event.toList ++ events, after)

variable {peer after : Peer} {action : Action} {event : Option PeerEvent}

theorem run_cons_eq_ok {rest : List Action} {events : List PeerEvent}
    (h : peer.run (action :: rest) = .ok (events, after)) :
    ∃ event middle later, peer.act action = .ok (event, middle) ∧
      middle.run rest = .ok (later, after) ∧ events = event.toList ++ later := by
  rw [run] at h
  cases hact : peer.act action with
  | error fault =>
    rw [hact] at h
    cases h
  | ok result =>
    obtain ⟨event, middle⟩ := result
    cases hrest : middle.run rest with
    | error fault =>
      simp only [hact, hrest, bind, Except.bind] at h
      cases h
    | ok result =>
      simp only [hact, hrest, bind, Except.bind, pure, Except.pure, Except.ok.injEq] at h
      cases h
      exact ⟨event, middle, result.1, rfl, hrest, rfl⟩

/-! ## Handled commands -/

/-- The confirmation of a departure is reported when the connection is forgotten. -/
theorem perform_departed {command : Command} {context : Context} {handled : Handled}
    (h : peer.perform command context = .ok handled) (hevent : handled.event = some .disconnected) :
    handled.peer = peer.reset := by
  cases obeys_of_perform h with
  | acknowledged _ htakes =>
    cases htakes with
    | departed => rfl
    | _ => cases hevent
  | answered _ hgrant => cases hgrant <;> cases hevent
  | _ => cases hevent

/-- A connection that is forgotten acknowledges nothing. -/
theorem queueAcknowledgement_reset (peer : Peer) (command : Command) (sentTime : Stamp) :
    peer.reset.queueAcknowledgement command sentTime = peer.reset := by
  unfold queueAcknowledgement
  rw [if_neg]
  exact Bool.false_ne_true

variable {header : Header} {command : Command} {context : Context}

theorem handle_departed (h : peer.handle header command context = .ok (event, after))
    (hevent : event = some .disconnected) : after = peer.reset := by
  obtain ⟨handled, hperform, rfl, rfl | ⟨-, -, rfl⟩⟩ := handle_eq_ok h
  · exact perform_departed hperform hevent
  · rw [perform_departed hperform hevent, queueAcknowledgement_reset]

/-- Handling a command reports that the connection stands exactly when it comes to stand, and
that it has ended exactly when its departure is confirmed and it is forgotten. -/
theorem handle_event (h : peer.handle header command context = .ok (event, after)) :
    (event = some .connected ↔ peer.state ≠ .connected ∧ after.state = .connected) ∧
      (event = some .disconnected ↔ peer.state = .disconnecting ∧ after = peer.reset) := by
  have hdeparted := handle_departed h
  have hturns := handle_turns h
  have hover : after = peer.reset → after.state = .disconnected := by
    rintro rfl
    rfl
  generalize peer.state = state at *
  generalize after.state = next at *
  cases hturns with
  | departed =>
    have hreset := hdeparted rfl
    rw [hover hreset]
    simp [hreset]
  | same =>
    refine ⟨⟨fun h ↦ (by cases h), fun h ↦ absurd h.2 h.1⟩, fun h ↦ (by cases h), fun h ↦ ?_⟩
    have hdisconnected := hover h.2
    rw [h.1] at hdisconnected
    cases hdisconnected
  | confirmed | granted => simp
  | refused | left | gone => simp
  | crossed =>
    refine ⟨by simp, fun h ↦ (by cases h), fun h ↦ ?_⟩
    cases hover h.2
  | aborted hstate =>
    refine ⟨by simp, fun h ↦ (by cases h), fun h ↦ ?_⟩
    rw [h.1] at hstate
    cases hstate

/-! ## One action -/

structure Proceeds (peer : Peer) (event : Option PeerEvent) (after : Peer) : Prop where
  leads : peer.state.LeadsTo after.state
  connected : event = some .connected → peer.state.stage = 0 ∧ after.state.stage = 1
  disconnected : event = some .disconnected → peer.state.stage < 4 ∧ after.state.stage = 4

/-- An action that reports nothing. -/
theorem Proceeds.silent (h : peer.state.LeadsTo after.state) : Proceeds peer none after where
  leads := h
  connected h := by cases h
  disconnected h := by cases h

/-- An action that leaves the state as it is. -/
theorem Proceeds.still (h : after.state = peer.state) : Proceeds peer none after :=
  .silent (.inl h)

theorem handle_proceeds (h : peer.handle header command context = .ok (event, after)) :
    Proceeds peer event after := by
  have hdeparted : event = some .disconnected → after.state = .disconnected := by
    intro hevent
    rw [handle_departed h hevent]
    rfl
  have hturns := handle_turns h
  generalize hbefore : peer.state = state at *
  generalize hafter : after.state = next at *
  have hof (hleads : state.LeadsTo next)
      (hconnected : event = some .connected → state.stage = 0 ∧ next.stage = 1)
      (hdisconnected : event = some .disconnected → state.stage < 4 ∧ next.stage = 4) :
      Proceeds peer event after := by
    subst hbefore hafter
    exact ⟨hleads, hconnected, hdisconnected⟩
  cases hturns with
  | departed =>
    obtain rfl := hdeparted rfl
    exact hof (.inr (by decide)) (by simp) (by decide)
  | aborted hstate => exact hof state.leadsTo_disconnected (by simp) (by simp)
  | same => exact hof (.refl _) (by simp) (by simp)
  | confirmed | granted => exact hof (.inr (by decide)) (by decide) (by simp)
  | refused | crossed | left | gone => exact hof (.inr (by decide)) (by simp) (by simp)

theorem compose_proceeds (peer : Peer) (now : Stamp) (check : Bool) :
    Proceeds peer none (peer.compose now check).2 := by
  rcases peer.compose_cases now check with ⟨-, hreset⟩ | ⟨-, commands, hcomposes, -⟩
  · rw [hreset]
    exact .silent peer.state.leadsTo_disconnected
  · rcases hcomposes.state with hsame | hzombie
    · exact .still hsame
    · by_cases hover : peer.state = .disconnected
      · -- A connection that is over does not even come to be a zombie.
        have hsilent : (peer.compose now check).2 = peer := by
          rw [compose_of_not_active (by rw [hover]; rfl)]
        rw [hsilent]
        exact .still rfl
      · apply Proceeds.silent
        rw [hzombie]
        revert hover
        cases peer.state <;> intro hover
        all_goals first | exact .inl rfl | exact .inr (by decide) | exact absurd rfl hover

theorem disconnect_proceeds (peer : Peer) : Proceeds peer none peer.disconnect.2 := by
  by_cases hconnected : peer.state = .connected
  · apply Proceeds.silent
    rw [hconnected, (disconnect_of_connected hconnected).2]
    exact .inr (by decide)
  · exact .still (disconnect_state peer hconnected)

/-- Every action but the beginning of a connection takes it further or leaves it where it
stands. -/
theorem act_proceeds (hbegins : action.begins = false) (h : peer.act action = .ok (event, after)) :
    Proceeds peer event after := by
  cases action with
  | connect | accept | reset => cases hbegins
  | send channel packet =>
    rw [act] at h
    split at h
    · cases h
      exact .still rfl
    · rename_i hsend
      cases h
      exact .still (send_state hsend)
  | ping =>
    cases h
    exact .still peer.ping_state
  | configureThrottle parameters =>
    cases h
    exact .still (queueControl_state ..)
  | announceBandwidth incoming outgoing =>
    cases h
    exact .still (queueControl_state ..)
  | disconnect =>
    cases h
    exact peer.disconnect_proceeds
  | disconnectNow =>
    cases h
    exact .still peer.disconnectNow_state
  | receive channel =>
    cases h
    apply Proceeds.still
    unfold receive
    split <;> rfl
  | receiveAny =>
    cases h
    exact .still rfl
  | compose now check =>
    cases h
    exact peer.compose_proceeds now check
  | handle header command context => exact handle_proceeds h

/-! ## Many actions -/

variable {actions : List Action} {events : List PeerEvent}

theorem run_leads (hbegins : ∀ action ∈ actions, action.begins = false)
    (h : peer.run actions = .ok (events, after)) : peer.state.LeadsTo after.state := by
  induction actions generalizing peer events with
  | nil =>
    cases h
    exact .refl _
  | cons action rest ih =>
    obtain ⟨event, middle, later, hact, hrest, -⟩ := run_cons_eq_ok h
    have hfirst := act_proceeds (hbegins action List.mem_cons_self) hact
    exact hfirst.leads.trans
      (ih (fun action hmem ↦ hbegins action (List.mem_cons_of_mem _ hmem)) hrest)

/-- What is reported only when a stage is reached is reported at most once, and not at all by a
connection that has come so far. -/
theorem run_count {report : PeerEvent} (stage : Nat)
    (hreport : ∀ peer after, Proceeds peer (some report) after →
      peer.state.stage < stage ∧ stage ≤ after.state.stage)
    (hbegins : ∀ action ∈ actions, action.begins = false)
    (h : peer.run actions = .ok (events, after)) :
    events.count report ≤ if peer.state.stage < stage then 1 else 0 := by
  induction actions generalizing peer events with
  | nil =>
    cases h
    exact Nat.zero_le _
  | cons action rest ih =>
    obtain ⟨event, middle, later, hact, hrest, rfl⟩ := run_cons_eq_ok h
    have hfirst := act_proceeds (hbegins action List.mem_cons_self) hact
    have hlater := ih (fun action hmem ↦ hbegins action (List.mem_cons_of_mem _ hmem)) hrest
    have hstage := hfirst.leads.stage_le
    rw [List.count_append]
    by_cases hevent : event = some report
    · subst hevent
      obtain ⟨hbefore, hafter⟩ := hreport _ _ hfirst
      rw [if_neg (Nat.not_lt.mpr hafter)] at hlater
      rw [if_pos hbefore, Option.toList_some, List.count_singleton_self]
      omega
    · have hnone : event.toList.count report = 0 := by
        rw [List.count_eq_zero, Option.mem_toList]
        exact hevent
      split at hlater <;> split <;> omega

/-- Until a connection is begun or forgotten, its state never goes back and never goes over to
another state of the same stage. What handling a command reports is what becomes of the state,
so that each report comes at most once; and once the connection is over, nothing is composed. -/
theorem run_proceeds (hbegins : ∀ action ∈ actions, action.begins = false)
    (h : peer.run actions = .ok (events, after)) :
    (after.state = peer.state ∨ peer.state.stage < after.state.stage) ∧
      events.count .connected ≤ 1 ∧ events.count .disconnected ≤ 1 ∧
      (∀ header command context event next,
        after.handle header command context = .ok (event, next) →
          (event = some .connected ↔ after.state ≠ .connected ∧ next.state = .connected) ∧
            (event = some .disconnected ↔
              after.state = .disconnecting ∧ next = after.reset)) ∧
      (peer.state = .zombie ∨ peer.state = .disconnected →
        ∀ now check, after.compose now check = (.ok .nothing, after)) := by
  have hleads := run_leads hbegins h
  refine ⟨hleads, ?_, ?_, fun _ _ _ _ _ hhandle ↦ handle_event hhandle, ?_⟩
  · have hcount := run_count 1 (fun peer after hproceeds ↦ by
      have hstages := hproceeds.connected rfl
      omega) hbegins h
    split at hcount <;> omega
  · have hcount := run_count 4 (fun peer after hproceeds ↦ by
      have hstages := hproceeds.disconnected rfl
      omega) hbegins h
    split at hcount <;> omega
  · intro hover now check
    have hstage : 3 ≤ peer.state.stage := by
      rcases hover with hover | hover <;> rw [hover] <;> decide
    have hsilent : after.state.isActive = false := by
      rw [PeerState.isActive_eq, decide_eq_false_iff_not, Nat.not_lt]
      exact Nat.le_trans hstage hleads.stage_le
    unfold compose
    rw [hsilent]
    rfl

/-- A connection that is granted, used and left, up to the confirmation of the departure. -/
def visit : List Action :=
  let context : Context := ⟨1000, 0, 0⟩
  let header : Header := ⟨0, 0, 1, 1000, 7⟩
  [.compose 1000 true,
    .handle header ⟨controlChannel, Command.acknowledgeFlag, 1,
      .verifyConnect ⟨3, 1400, 65536, 1, 0, 0, Settings.throttle {}⟩⟩ context,
    .send 0 ⟨[1, 2, 3], .reliable⟩, .compose 1000 true, .disconnect, .compose 1000 true,
    .handle header ⟨controlChannel, 0, 2, .acknowledge 2 1000⟩ context, .compose 1000 true]

/-- A visit reports its beginning and its end, once each. -/
theorem run_proceeds_visit : ∃ peer after,
    (vacant 0 {}).connect ⟨"10.0.0.1", 4000⟩ 1 7 ⟨1000, 0, 0⟩ = .ok peer ∧
      peer.run visit = .ok ([.connected, .disconnected], after) ∧
      peer.state.stage < after.state.stage := by
  have hvisit : (((vacant 0 {}).connect ⟨"10.0.0.1", 4000⟩ 1 7 ⟨1000, 0, 0⟩).toOption.any
      fun peer ↦ (peer.run visit).toOption.any fun result ↦
        result.1 == [.connected, .disconnected] && result.2.state != peer.state) = true := by
    decide +kernel
  cases hconnect : (vacant 0 {}).connect ⟨"10.0.0.1", 4000⟩ 1 7 ⟨1000, 0, 0⟩ with
  | error fault =>
    rw [hconnect] at hvisit
    cases hvisit
  | ok peer =>
    rw [hconnect] at hvisit
    change (peer.run visit).toOption.any _ = true at hvisit
    cases hrun : peer.run visit with
    | error fault =>
      rw [hrun] at hvisit
      cases hvisit
    | ok result =>
      rw [hrun] at hvisit
      change (result.1 == [.connected, .disconnected] && result.2.state != peer.state) = true
        at hvisit
      rw [Bool.and_eq_true, beq_iff_eq, bne_iff_ne] at hvisit
      obtain ⟨events, after⟩ := result
      obtain ⟨rfl, hmoved⟩ := hvisit
      have hleads := (run_proceeds (by decide) hrun).1
      exact ⟨peer, after, rfl, hrun, hleads.resolve_left hmoved⟩

end Peer

end ReliableDatagram
