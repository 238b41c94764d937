import ReliableDatagram.Proofs.Host.Requests
import ReliableDatagram.Proofs.Host.Serving

/-!
# Runs of a host

A run begins with a host without connections. Then the application does one thing after the
other, in any order, and the surroundings may change as they like in between. Nothing is
assumed about the socket, the clock and the datagrams that arrive.
-/

namespace ReliableDatagram

inductive Operation (σ : Type) where
  /-- A connection is begun, under a challenge that was drawn for it. -/
  | connect (address : Address) (channelCount : Nat) (challenge : UInt32)
  | send (id : PeerId) (channel : UInt8) (packet : Packet)
  | broadcast (channel : UInt8) (packet : Packet)
  | disconnect (id : PeerId)
  | disconnectNow (id : PeerId)
  /-- A connection is forgotten. -/
  | resetPeer (id : PeerId)
  | ping (id : PeerId)
  | configureThrottle (id : PeerId) (parameters : ThrottleParameters)
  | limitBandwidth (incoming outgoing : UInt32)
  /-- A request is left in the mailbox. -/
  | submit (request : Request)
  /-- What waits is sent. -/
  | flush
  /-- The host serves, for at most so many rounds. -/
  | service (timeout : UInt32) (rounds : Nat)
  /-- The application reaches for a peer and alters it as it likes. -/
  | change (id : PeerId) (alter : Peer → Peer)
  /-- The surroundings change. -/
  | outside (change : σ → σ)

inductive Answer where
  | done
  | refused (error : TransportError)
  | opened (id : PeerId)
  | returned (event : Event)
  /-- The rounds are over, and no event has come. -/
  | waiting
deriving DecidableEq, Repr

namespace Answer

def event? : Answer → Option Event
  | returned event => some event
  | _ => none

theorem event?_eq_some {answer : Answer} {event : Event} :
    answer.event? = some event ↔ answer = .returned event := by
  cases answer with
  | returned found => simp [event?]
  | _ => simp [event?]

end Answer

namespace LiveHost

variable {σ : Type} (env : Environment σ)

/-- The answer to something that may be refused, and leaves everything as it is then. -/
def settle (live : LiveHost σ) : Except TransportError (LiveHost σ) → Answer × LiveHost σ
  | .ok after => (.done, after)
  | .error error => (.refused error, live)

def settleHost (live : LiveHost σ) : Except TransportError Host → Answer × LiveHost σ
  | .ok host => (.done, { live with host := host })
  | .error error => (.refused error, live)

def perform (live : LiveHost σ) : Operation σ → Except Fault (Answer × LiveHost σ)
  | .connect address channelCount challenge =>
    match live.connect env address channelCount challenge with
    | .error fault => .error fault
    | .ok (.ok id, after) => .ok (.opened id, after)
    | .ok (.error error, after) => .ok (.refused error, after)
  | .send id channel packet => .ok (live.settleHost (live.host.send id channel packet))
  | .broadcast channel packet =>
    .ok (.done, live.mapHost fun host ↦ (host.broadcast channel packet).2)
  | .disconnect id => .ok (live.settle (live.disconnect env id))
  | .disconnectNow id => .ok (live.settle (live.disconnectNow env id))
  | .resetPeer id => .ok (live.settleHost (live.host.resetPeer id))
  | .ping id => .ok (live.settleHost (live.host.ping id))
  | .configureThrottle id parameters =>
    .ok (live.settleHost (live.host.configureThrottle id parameters))
  | .limitBandwidth incoming outgoing =>
    .ok (.done, live.mapHost (·.limitBandwidth incoming outgoing))
  | .submit request => .ok (live.settleHost (live.host.submit request))
  | .flush => .ok (.done, live.flush env)
  | .service timeout rounds =>
    match live.service env timeout rounds with
    | .error fault => .error fault
    | .ok (some event, after) => .ok (.returned event, after)
    | .ok (none, after) => .ok (.waiting, after)
  | .change id alter => .ok (live.settleHost (live.host.updatePeer id alter))
  | .outside change => .ok (.done, { live with world := change live.world })

end LiveHost

/-! ## What serving does after the requests -/

namespace LiveHost

open Host

variable {σ : Type} (env : Environment σ) {live after : LiveHost σ} {event : Option Event}

/-- The host as it carries out the requests in its mailbox, which it has emptied. -/
def emptied (live : LiveHost σ) : LiveHost σ :=
  live.mapHost fun host ↦ { host with mailbox := { host.mailbox with requests := [] } }

theorem emptied_acts (kept : PeerId → Prop) (live : LiveHost σ) :
    Acts kept live.host live.emptied.host := by
  have hpasses : Passes true live.host live.emptied.host :=
    .of_eq (fun _ ↦ rfl) (fun hsound ↦ hsound) rfl
  exact hpasses.acts

/-- The requests let the connections that stand go on, except for one that is left when its
other end has left and waits for the confirmation. -/
theorem applyRequests_acts (live : LiveHost σ) :
    Acts (fun id ↦ live.host.Stands id ∧ ¬ Drops env id live.host.mailbox.requests live.emptied)
      live.host (live.applyRequests env).host := by
  apply (emptied_acts _ live).trans
  constructor
  · exact applyAll_clears env live.emptied _
  · intro id hkept
    exact applyAll_moves env live.emptied _ hkept.1 hkept.2

/-- Serving returns the oldest event that waits once the requests are carried out, or else
there is none that waits. -/
theorem service_served {timeout : UInt32} {rounds : Nat}
    (h : live.service env timeout rounds = .ok (event, after)) (hsound : live.host.table.Sound) :
    (∃ first, event = some first ∧
        (live.applyRequests env).host.popEvent = (some first, after.host)) ∨
      (live.applyRequests env).host.pending = [] ∧
        Served (live.applyRequests env).host event after.host := by
  have hstart := (live.applyRequests_acts env).clears.sound hsound
  rcases (live.applyRequests env).host.dispatch_eq with
    ⟨first, next, hpop, hfound⟩ | ⟨hempty, hdispatches⟩
  · cases serviceEnds_of_service env h with
    | dispatched hdispatch =>
      rw [dispatch_host hdispatch] at hfound
      cases hfound
      exact .inl ⟨first, rfl, hpop⟩
    | served hdispatch =>
      rw [dispatch_host hdispatch] at hfound
      cases hfound
  · have hserved := hdispatches.served hstart hempty
    refine .inr ⟨hempty, ?_⟩
    cases serviceEnds_of_service env h with
    | dispatched hdispatch => rwa [dispatch_host hdispatch] at hserved
    | served hdispatch hrounds =>
      rw [dispatch_host hdispatch] at hserved
      have hrests := hserved.rests hempty
      have hlast := serviceRounds_served env hrounds hrests.sound hrests.pending
      exact hrests.served hempty hlast

end LiveHost

/-! ## What an operation does -/

/-- The application frees a slot itself, or changes the connection in it in another way than
the operations on connections do. -/
def Operation.Dismisses {σ : Type} (id : PeerId) : Operation σ → Prop
  | .disconnectNow other | .resetPeer other => other = id
  | .change other alter => other = id ∧ ¬ ∀ peer, Peer.Continues peer (alter peer)
  | _ => False

namespace LiveHost

open Host

variable {σ : Type} (env : Environment σ) {live after : LiveHost σ} {answer : Answer}
  {operation : Operation σ}

/-- An operation leaves a connection, directly or by a request in the mailbox, when its other
end has left and waits for the confirmation. -/
def Abandons (id : PeerId) (live : LiveHost σ) : Operation σ → Prop
  | .disconnect other => Drops env id [.disconnect other] live
  | .flush | .service _ _ => Drops env id live.host.mailbox.requests live.emptied
  | _ => False

/-- The connection in a slot, if there is one, stands, and an operation neither dismisses nor
abandons it. -/
def Spares (live : LiveHost σ) (operation : Operation σ) (id : PeerId) : Prop :=
  live.host.Stands id ∧ ¬ operation.Dismisses id ∧ ¬ live.Abandons env id operation

/-- A connection that is begun is put into the slot that the table allocates for it, and if that
is refused the host stays as it is. -/
theorem connect_eq_ok {address : Address} {channelCount : Nat} {challenge : UInt32}
    {result : Except TransportError PeerId}
    (h : live.connect env address channelCount challenge = .ok (result, after)) :
    (∃ error, result = .error error ∧ after.host = live.host) ∨
      ∃ id slot table count context peer, result = .ok id ∧
        live.host.table.allocate = some (id, slot, table) ∧
        slot.connect address count challenge context = .ok peer ∧
        after.host = { live.host with table := table.set id peer } := by
  unfold connect at h
  cases hcount : live.host.settings.clampChannelCount channelCount with
  | error fault =>
    rw [hcount] at h
    cases h
  | ok count =>
    rw [hcount] at h
    dsimp only [bind, Except.bind] at h
    rw [now_host] at h
    split at h
    · cases h
      exact .inl ⟨_, rfl, rfl⟩
    · rename_i id slot table hallocate
      cases hconnect : slot.connect address count challenge
        (live.host.context (live.now env).1) with
      | error fault =>
        rw [hconnect] at h
        cases h
      | ok peer =>
        rw [hconnect] at h
        cases h
        exact .inr ⟨id, slot, table, count, _, peer, rfl, hallocate, hconnect, rfl⟩

/-- The answer tells whether a connection was begun. -/
theorem connect_of_perform {address : Address} {channelCount : Nat} {challenge : UInt32}
    (h : live.perform env (.connect address channelCount challenge) = .ok (answer, after)) :
    (answer.event? = none ∧ after.host = live.host) ∨ ∃ id, answer = .opened id ∧
      live.connect env address channelCount challenge = .ok (.ok id, after) := by
  unfold perform at h
  dsimp only at h
  split at h
  · cases h
  · rename_i id next hconnect
    cases h
    exact .inr ⟨id, rfl, hconnect⟩
  · rename_i error next hconnect
    cases h
    obtain ⟨-, -, hsame⟩ | ⟨id, -, -, -, -, -, heq, -⟩ := connect_eq_ok env hconnect
    · exact .inl ⟨rfl, hsame⟩
    · cases heq

inductive Performs (env : Environment σ) (live : LiveHost σ) (operation : Operation σ)
    (answer : Answer) (after : LiveHost σ) : Prop where
  /-- No event is returned, and the connections that the operation spares move on. -/
  | acts (hanswer : answer.event? = none)
      (hacts : Acts (live.Spares env operation) live.host after.host) :
      Performs env live operation answer after
  | opens {id : PeerId} (hanswer : answer = .opened id) (hvacant : live.host.peer? id = none)
      (hsound : after.host.table.Sound) (hpending : after.host.pending = live.host.pending)
      (hsame : ∀ other ≠ id, after.host.peer? other = live.host.peer? other) :
      Performs env live operation answer after
  | serves {timeout : UInt32} {rounds : Nat} (hoperation : operation = .service timeout rounds)
      (hservice : live.service env timeout rounds = .ok (answer.event?, after)) :
      Performs env live operation answer after

theorem settle_eq {result : Except TransportError (LiveHost σ)}
    (h : live.settle result = (answer, after)) :
    answer.event? = none ∧ (result = .ok after ∨ after = live) := by
  cases result with
  | ok next =>
    cases h
    exact ⟨rfl, .inl rfl⟩
  | error error =>
    cases h
    exact ⟨rfl, .inr rfl⟩

theorem settleHost_eq {result : Except TransportError Host}
    (h : live.settleHost result = (answer, after)) :
    answer.event? = none ∧ (result = .ok after.host ∨ after = live) := by
  cases result with
  | ok next =>
    cases h
    exact ⟨rfl, .inl rfl⟩
  | error error =>
    cases h
    exact ⟨rfl, .inr rfl⟩

theorem settle_performs {result : Except TransportError (LiveHost σ)}
    (hresult : ∀ next, result = .ok next → Acts (live.Spares env operation) live.host next.host)
    (heq : live.settle result = (answer, after)) : Performs env live operation answer after := by
  obtain ⟨hanswer, hok | rfl⟩ := settle_eq heq
  · exact .acts hanswer (hresult after hok)
  · exact .acts hanswer (.refl _ after.host)

theorem settleHost_performs {result : Except TransportError Host}
    (hresult : ∀ next, result = .ok next → Acts (live.Spares env operation) live.host next)
    (heq : live.settleHost result = (answer, after)) :
    Performs env live operation answer after := by
  obtain ⟨hanswer, hok | rfl⟩ := settleHost_eq heq
  · exact .acts hanswer (hresult after.host hok)
  · exact .acts hanswer (.refl _ after.host)

theorem connect_performs {address : Address} {channelCount : Nat} {challenge : UInt32}
    (h : live.perform env (.connect address channelCount challenge) = .ok (answer, after))
    (hsound : live.host.table.Sound) :
    Performs env live (.connect address channelCount challenge) answer after := by
  obtain ⟨hanswer, hsame⟩ | ⟨id, hanswer, hconnect⟩ := connect_of_perform env h
  · apply Performs.acts hanswer
    rw [hsame]
    exact .refl _ live.host
  · obtain ⟨error, heq, -⟩ | ⟨opened, slot, table, _, _, peer, heq, hallocate, -, hafter⟩ :=
      connect_eq_ok env hconnect
    · cases heq
    · cases heq
      obtain ⟨htable, hvacant, hslot, hothers⟩ := hsound.allocate hallocate
      refine .opens hanswer hvacant ?_ (by rw [hafter]) fun other hne ↦ ?_
      · rw [hafter]
        exact htable.set hslot
      · rw [hafter]
        exact (SlotTable.get?_set_of_ne table peer hne).trans (hothers other hne)

theorem service_of_perform {timeout : UInt32} {rounds : Nat}
    (h : live.perform env (.service timeout rounds) = .ok (answer, after)) :
    live.service env timeout rounds = .ok (answer.event?, after) := by
  unfold perform at h
  dsimp only at h
  split at h
  · cases h
  · rename_i hservice
    cases h
    exact hservice
  · rename_i hservice
    cases h
    exact hservice

theorem performs_of_perform (h : live.perform env operation = .ok (answer, after))
    (hsound : live.host.table.Sound) : Performs env live operation answer after := by
  cases operation with
  | connect address channelCount challenge => exact connect_performs env h hsound
  | send id channel packet =>
    exact settleHost_performs env (fun next hsend ↦ (send_passes hsend).acts) (Except.ok.inj h)
  | broadcast channel packet =>
    cases h
    exact .acts rfl (live.host.broadcast_passes channel packet).acts
  | disconnect id =>
    apply settle_performs env ?_ (Except.ok.inj h)
    intro next hleft
    apply disconnect_acts env hleft
    rintro ⟨hstands, -, hkept⟩ peer hpeer
    apply Peer.disconnect_of_isStanding (hstands peer hpeer)
    intro hstate
    exact hkept ⟨[], [], peer, rfl, hpeer, hstate⟩
  | disconnectNow id =>
    apply settle_performs env ?_ (Except.ok.inj h)
    intro next hleft
    exact disconnectNow_acts env hleft fun hkept ↦ hkept.2.1 rfl
  | resetPeer id =>
    apply settleHost_performs env ?_ (Except.ok.inj h)
    intro next hreset
    rw [resetPeer_eq_ok hreset]
    exact acts_release live.host fun hkept ↦ hkept.2.1 rfl
  | ping id =>
    apply settleHost_performs env ?_ (Except.ok.inj h)
    intro next hping
    exact (updatePeer_passes hping Peer.ping_stays).acts
  | configureThrottle id parameters =>
    apply settleHost_performs env ?_ (Except.ok.inj h)
    intro next hconfigured
    exact (updatePeer_passes hconfigured (·.configureThrottle_stays parameters)).acts
  | limitBandwidth incoming outgoing =>
    cases h
    exact .acts rfl (live.host.limitBandwidth_passes incoming outgoing).acts
  | submit request =>
    exact settleHost_performs env (fun next hsubmit ↦ (submit_passes hsubmit).acts)
      (Except.ok.inj h)
  | flush =>
    cases h
    have hrequests := live.applyRequests_acts env
    have hsent := sendOutgoing_passes env false (live.applyRequests env)
    refine .acts rfl ⟨hrequests.clears.trans hsent.clears, fun id hkept ↦ ?_⟩
    exact (hrequests.moves id ⟨hkept.1, hkept.2.2⟩).trans (hsent.moves id)
  | service timeout rounds => exact .serves rfl (service_of_perform env h)
  | change id alter =>
    apply settleHost_performs env ?_ (Except.ok.inj h)
    intro next hchanged
    apply updatePeer_acts hchanged
    intro hkept
    by_contra hother
    exact hkept.2.1 ⟨rfl, hother⟩
  | outside change =>
    cases h
    exact .acts rfl (.refl _ live.host)

end LiveHost

/-! ## Runs -/

/-- One step of a run: where the host stood, what happened and what the answer was. -/
structure Turn (σ : Type) where
  before : LiveHost σ
  operation : Operation σ
  answer : Answer

/-- What has happened to a host since its creation, and what it has become. -/
inductive Run {σ : Type} (env : Environment σ) : List (Turn σ) → LiveHost σ → Prop where
  | start (capacity : Nat) (incoming outgoing : UInt32) (settings : Settings) (world : σ) :
      Run env [] ⟨.create capacity incoming outgoing settings, world⟩
  | turn {turns : List (Turn σ)} {live after : LiveHost σ} {operation : Operation σ}
      {answer : Answer} (h : Run env turns live)
      (hperform : live.perform env operation = .ok (answer, after)) :
      Run env (turns ++ [⟨live, operation, answer⟩]) after

/-- The last step of a run. -/
theorem Run.last {σ : Type} {env : Environment σ} {turns : List (Turn σ)} {turn : Turn σ}
    {after : LiveHost σ} (h : Run env (turns ++ [turn]) after) :
    Run env turns turn.before ∧
      turn.before.perform env turn.operation = .ok (turn.answer, after) := by
  generalize hall : turns ++ [turn] = all at h
  cases h with
  | start => simp at hall
  | turn hrun hperform =>
    obtain ⟨rfl, hlast⟩ := List.append_inj' hall rfl
    cases hlast
    exact ⟨hrun, hperform⟩

/-! ## Runs that can be computed -/

/-- Does some things, one after the other, and keeps the turns; `none` if there is a fault. -/
def LiveHost.performAll? {σ : Type} (env : Environment σ) (live : LiveHost σ) :
    List (Operation σ) → Option (List (Turn σ) × LiveHost σ)
  | [] => some ([], live)
  | operation :: rest =>
    match live.perform env operation with
    | .error _ => none
    | .ok (answer, middle) =>
      (middle.performAll? env rest).map fun (turns, after) ↦
        (⟨live, operation, answer⟩ :: turns, after)

theorem LiveHost.operations_of_performAll? {σ : Type} {env : Environment σ}
    {turns : List (Turn σ)} {live after : LiveHost σ} {operations : List (Operation σ)}
    (h : live.performAll? env operations = some (turns, after)) :
    turns.map (·.operation) = operations := by
  induction operations generalizing turns live with
  | nil =>
    cases h
    rfl
  | cons operation rest ih =>
    rw [performAll?] at h
    split at h
    · cases h
    · obtain ⟨⟨more, last⟩, hrest, heq⟩ := Option.map_eq_some_iff.mp h
      cases heq
      exact congrArg (operation :: ·) (ih hrest)

theorem LiveHost.forall_of_performAll? {σ : Type} {env : Environment σ}
    {turns : List (Turn σ)} {live after : LiveHost σ} {operations : List (Operation σ)}
    {allowed : Operation σ → Prop} (h : live.performAll? env operations = some (turns, after))
    (hallowed : ∀ operation ∈ operations, allowed operation) :
    ∀ turn ∈ turns, allowed turn.operation := by
  intro turn hturn
  apply hallowed
  rw [← operations_of_performAll? h]
  exact List.mem_map_of_mem hturn

theorem Run.performAll? {σ : Type} {env : Environment σ} {turns later : List (Turn σ)}
    {live after : LiveHost σ} {operations : List (Operation σ)} (h : Run env turns live)
    (hperform : live.performAll? env operations = some (later, after)) :
    Run env (turns ++ later) after := by
  induction operations generalizing turns later live with
  | nil =>
    cases hperform
    rwa [List.append_nil]
  | cons operation rest ih =>
    rw [LiveHost.performAll?] at hperform
    split at hperform
    · cases hperform
    · rename_i answer middle hfirst
      obtain ⟨⟨more, last⟩, hrest, heq⟩ := Option.map_eq_some_iff.mp hperform
      cases heq
      have hrun := ih (h.turn hfirst) hrest
      rwa [List.append_assoc, List.singleton_append] at hrun

structure Script where
  /-- The milliseconds since the host was created. -/
  elapsed : Nat := 0
  /-- The datagrams that arrive, and where they come from. -/
  arriving : List (Bytes × Address) := []

/-- Surroundings that do what a script says. What the host sends is lost. -/
def Script.environment : Environment Script where
  toInterceptor := .transparent
  elapsed script := (script.elapsed, script)
  send _ _ script := (.ok (), script)
  receive script :=
    match script.arriving with
    | [] => (.ok none, script)
    | first :: rest => (.ok (some first), { script with arriving := rest })
  wait _ script := (.ok false, script)
  localAddress script := (.ok ⟨"10.0.0.1", 1⟩, script)

/-- A host with two slots that gives connections up early, after some operations. -/
def rehearse (operations : List (Operation Script)) :
    Option (List (Turn Script) × LiveHost Script) :=
  let settings : Settings := { timeoutLimit := 1, initialRoundTrip := 10 }
  let live : LiveHost Script := ⟨.create 2 0 0 settings, {}⟩
  live.performAll? Script.environment operations

theorem run_of_rehearse {operations : List (Operation Script)} {turns : List (Turn Script)}
    {live : LiveHost Script} (h : rehearse operations = some (turns, live)) :
    Run Script.environment turns live := by
  unfold rehearse at h
  exact (Run.start 2 0 0 _ _).performAll? h

end ReliableDatagram
