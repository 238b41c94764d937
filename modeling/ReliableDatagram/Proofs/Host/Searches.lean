import ReliableDatagram.Proofs.Host.Isolation
import ReliableDatagram.Proofs.Host.Trails
import Mathlib.Data.List.Chain

/-!
# The searches of a host

A host searches its slots for an event only when nothing waits to be reported. Each search
begins where the one before has left off: whatever else the host does, whatever the application
asks for and whatever arrives, where the next search begins stays as it is, and so does the
number of slots.
-/

namespace ReliableDatagram

theorem SlotTable.capacity_release (table : SlotTable) (id : PeerId) :
    (table.release id).capacity = table.capacity := by
  unfold release
  split
  · rfl
  · simp [capacity]

theorem SlotTable.capacity_of_allocate {table after : SlotTable} {id : PeerId} {fresh : Peer}
    (h : table.allocate = some (id, fresh, after)) : after.capacity = table.capacity := by
  unfold allocate at h
  split at h
  · cases h
  · cases h
    exact capacity_set ..

namespace Host

variable {host after : Host} {id : PeerId} {header : Header} {command : Command}
  {context : Context} {address : Address}

/-- Where the next search begins, and how many slots it goes through. -/
def place (host : Host) : Nat × Nat := (host.cursor, host.table.capacity)

def search (host : Host) : Option Event × Host := host.dispatchFrom host.searchOrder

/-- The host as it begins a search, if nothing waits to be reported. -/
def searches (host : Host) : List Host := if host.pending.isEmpty then [host] else []

/-! ## What leaves the place of the next search -/

@[simp]
theorem place_setPeer (host : Host) (id : PeerId) (peer : Peer) :
    (host.setPeer id peer).place = host.place := by
  simp [place, setPeer]

@[simp]
theorem place_release (host : Host) (id : PeerId) : (host.release id).place = host.place := by
  simp [place, release, SlotTable.capacity_release]

@[simp]
theorem place_requestRecalculation (host : Host) : host.requestRecalculation.place = host.place :=
  rfl

@[simp]
theorem place_pushEvent (host : Host) (event : Event) : (host.pushEvent event).place = host.place :=
  rfl

@[simp]
theorem place_reportDeparture (host : Host) (id : PeerId) (state : PeerState) :
    (host.reportDeparture id state).place = host.place := by
  cases state <;> rfl

theorem place_of_slotwise {becomes : Peer → Peer → Prop} {slots : List (Option Peer)}
    (hslots : SlotTable.Slotwise becomes host.table.slots.toList slots)
    (htable : after.table = { host.table with slots := slots.toArray })
    (hcursor : after.cursor = host.cursor) : after.place = host.place := by
  rw [place, place, htable, hslots.capacity, hcursor]

theorem place_broadcast (host : Host) (channel : UInt8) (packet : Packet) :
    (host.broadcast channel packet).2.place = host.place :=
  place_of_slotwise (host.broadcast_slotwise channel packet) rfl rfl

theorem place_allocateBandwidth (host : Host) (now : Stamp) :
    (host.allocateBandwidth now).place = host.place := by
  unfold allocateBandwidth
  split
  · obtain ⟨slots, hslots, htable⟩ := host.allocator.run_slotwise (host.context now)
      host.settings.throttleScale host.table
    exact place_of_slotwise hslots htable rfl
  · rfl

theorem place_of_send {channel : UInt8} {packet : Packet}
    (h : host.send id channel packet = .ok after) : after.place = host.place := by
  obtain ⟨peer, next, -, -, rfl⟩ := send_eq_ok h
  exact place_setPeer ..

theorem place_of_updatePeer {change : Peer → Peer} (h : host.updatePeer id change = .ok after) :
    after.place = host.place := by
  obtain ⟨peer, -, rfl⟩ := updatePeer_eq_ok h
  exact place_setPeer ..

theorem place_of_submit {request : Request} (h : host.submit request = .ok after) :
    after.place = host.place := by
  unfold submit at h
  cases hpush : host.mailbox.push request with
  | error error =>
    rw [hpush] at h
    cases h
  | ok mailbox =>
    rw [hpush] at h
    cases h
    rfl

theorem place_of_popEvent {event : Option Event} (h : host.popEvent = (event, after)) :
    after.place = host.place := by
  unfold popEvent at h
  split at h <;> cases h <;> rfl

/-! ## What arrives -/

theorem place_of_handleCommand {goesOn : Bool}
    (h : host.handleCommand id header command context = .ok (goesOn, after)) :
    after.place = host.place := by
  cases handleCommand_resolves h with
  | absent => rfl
  | goesOn => exact place_setPeer ..
  | connected | ends => simp

theorem place_of_accept {offer : Handshake}
    (h : host.accept address header command offer context = .ok (some (id, after))) :
    after.place = host.place := by
  obtain ⟨-, slot, table, peer, hallocate, -, rfl⟩ := accept_eq_ok h
  simp [place, SlotTable.capacity_of_allocate hallocate]

theorem place_of_handleCommands_some {count : Nat} {bytes : Bytes}
    (h : handleCommands header address context count (some id) bytes host = .ok after) :
    after.place = host.place :=
  handleCommands_preserves (·.place = host.place)
    (fun hplace hhandle ↦ (place_of_handleCommand hhandle).trans hplace) h rfl

theorem place_of_handleCommands_none {count : Nat} {bytes : Bytes}
    (h : handleCommands header address context count none bytes host = .ok after) :
    after.place = host.place := by
  cases count with
  | zero =>
    cases h
    rfl
  | succ count =>
    unfold handleCommands at h
    split at h
    · cases h
      rfl
    · split at h
      · cases h
        rfl
      · rename_i command rest _
        dsimp only at h
        split at h
        · rename_i offer _
          cases haccept : host.accept address header command offer context with
          | error fault =>
            rw [haccept] at h
            cases h
          | ok result =>
            rw [haccept] at h
            cases result with
            | none =>
              cases h
              rfl
            | some opened => exact (place_of_handleCommands_some h).trans (place_of_accept haccept)
        · cases h
          rfl

theorem place_of_handleContent {length : Nat} {content : Bytes} {now : Stamp}
    (h : host.handleContent address header length content now = .ok after) :
    after.place = host.place := by
  unfold handleContent at h
  dsimp only at h
  split at h
  · exact place_of_handleCommands_none h
  · split at h
    · cases h
      rfl
    · rename_i id middle hmatch
      obtain ⟨rfl, peer, known, -, rfl⟩ := matchPeer_eq_some hmatch
      exact (place_of_handleCommands_some h).trans (place_setPeer ..)

end Host

namespace LiveHost

open Host

variable {σ : Type} (env : Environment σ) {live after : LiveHost σ}

theorem place_of_handleDatagram {address : Address} {datagram : Bytes}
    (h : live.handleDatagram env address datagram = .ok after) :
    after.host.place = live.host.place := by
  rcases handleDatagram_eq_ok env h with hsame | ⟨_, _, _, _, -, -, -, hhandle⟩
  · rw [hsame]
  · exact place_of_handleContent hhandle

theorem place_of_receiveDatagrams {count : Nat} (h : live.receiveDatagrams env count = .ok after) :
    after.host.place = live.host.place := by
  replace h := receptionEnds_of_receiveDatagrams env h
  induction h with
  | enough | failed | idle => rfl
  | reported _ hhandle =>
    have hplace := place_of_handleDatagram env hhandle
    exact hplace
  | passed _ hhandle _ _ ih =>
    have hplace := place_of_handleDatagram env hhandle
    exact ih.trans hplace

/-! ## What is sent -/

theorem place_transmit (live : LiveHost σ) (address : Address) (datagram : Bytes) :
    (live.transmit env address datagram).host.place = live.host.place := by
  unfold transmit
  split
  · rfl
  · split <;> rfl

theorem place_sendFrom (now : Stamp) (check : Bool) (id : PeerId) (live : LiveHost σ) :
    (live.sendFrom env now check id).2.host.place = live.host.place := by
  have hends := live.sendFrom_ends env now check id
  generalize live.sendFrom env now check id = result at hends ⊢
  cases hends with
  | silent => rfl
  | kept => exact place_setPeer ..
  | sent => exact (place_transmit ..).trans (place_setPeer ..)
  | gaveUp => simp [mapHost]

theorem place_sendOutgoing (live : LiveHost σ) (check : Bool) :
    (live.sendOutgoing env check).host.place = live.host.place :=
  sendOutgoing_induction env (fun live after ↦ after.host.place = live.host.place) (fun _ ↦ rfl)
    (fun hfirst hnext ↦ hnext.trans hfirst) (fun _ ↦ rfl)
    (fun now ↦ place_sendFrom env now check) live

theorem place_opening (live : LiveHost σ) : (live.opening env).host.place = live.host.place :=
  (place_sendOutgoing env ((live.now env).2.mapHost (·.allocateBandwidth (live.now env).1))
    true).trans (place_allocateBandwidth live.host (live.now env).1)

/-! ## What the application asks for -/

theorem place_of_disconnect {id : PeerId} (h : live.disconnect env id = .ok after) :
    after.host.place = live.host.place := by
  cases disconnectEnds_of_disconnect env h with
  | leaves => exact place_setPeer ..
  | freed => exact ((place_release ..).trans (place_sendOutgoing ..)).trans (place_setPeer ..)

theorem place_of_disconnectNow {id : PeerId} (h : live.disconnectNow env id = .ok after) :
    after.host.place = live.host.place := by
  cases disconnectNowEnds_of_disconnectNow env h with
  | silent => exact (place_release ..).trans (place_setPeer ..)
  | told => exact ((place_release ..).trans (place_sendOutgoing ..)).trans (place_setPeer ..)

theorem place_applyRequest (live : LiveHost σ) (request : Request) :
    (live.applyRequest env request).host.place = live.host.place := by
  cases request with
  | send peer channel packet =>
    unfold applyRequest
    dsimp only
    split
    · rename_i hsend
      exact place_of_send hsend
    · rfl
  | broadcast channel packet => exact place_broadcast ..
  | disconnect peer =>
    unfold applyRequest
    dsimp only
    split
    · rename_i hdisconnect
      exact place_of_disconnect env hdisconnect
    · rfl

theorem place_applyAll (live : LiveHost σ) (requests : List Request) :
    (live.applyAll env requests).host.place = live.host.place := by
  induction requests generalizing live with
  | nil => rfl
  | cons request rest ih => exact (ih _).trans (place_applyRequest ..)

theorem place_applyRequests (live : LiveHost σ) :
    (live.applyRequests env).host.place = live.host.place :=
  place_applyAll env live.emptied live.host.mailbox.requests

theorem place_of_settle {result : Except TransportError (LiveHost σ)} {answer : Answer}
    (hresult : ∀ next, result = .ok next → next.host.place = live.host.place)
    (h : live.settle result = (answer, after)) : after.host.place = live.host.place := by
  obtain ⟨-, hok | rfl⟩ := settle_eq h
  · exact hresult after hok
  · rfl

theorem place_of_settleHost {result : Except TransportError Host} {answer : Answer}
    (hresult : ∀ next, result = .ok next → next.place = live.host.place)
    (h : live.settleHost result = (answer, after)) : after.host.place = live.host.place := by
  obtain ⟨-, hok | rfl⟩ := settleHost_eq h
  · exact hresult after.host hok
  · rfl

/-- Only serving searches the slots. -/
theorem place_of_perform {operation : Operation σ} {answer : Answer}
    (h : live.perform env operation = .ok (answer, after))
    (hserves : ∀ timeout rounds, operation ≠ .service timeout rounds) :
    after.host.place = live.host.place := by
  cases operation with
  | connect address channelCount challenge =>
    obtain ⟨-, hsame⟩ | ⟨id, -, hconnect⟩ := connect_of_perform env h
    · rw [hsame]
    · obtain ⟨-, -, hsame⟩ | ⟨_, slot, table, _, _, peer, -, hallocate, -, hafter⟩ :=
        connect_eq_ok env hconnect
      · rw [hsame]
      · simp [hafter, place, SlotTable.capacity_of_allocate hallocate]
  | send id channel packet =>
    exact place_of_settleHost (fun _ hsend ↦ place_of_send hsend) (Except.ok.inj h)
  | broadcast channel packet =>
    cases h
    exact place_broadcast ..
  | disconnect id =>
    exact place_of_settle (fun _ hleft ↦ place_of_disconnect env hleft) (Except.ok.inj h)
  | disconnectNow id =>
    exact place_of_settle (fun _ hleft ↦ place_of_disconnectNow env hleft) (Except.ok.inj h)
  | resetPeer id =>
    apply place_of_settleHost ?_ (Except.ok.inj h)
    intro next hreset
    rw [resetPeer_eq_ok hreset, place_release]
  | ping | configureThrottle | change =>
    exact place_of_settleHost (fun _ hchanged ↦ place_of_updatePeer hchanged) (Except.ok.inj h)
  | limitBandwidth incoming outgoing =>
    cases h
    rfl
  | submit request =>
    exact place_of_settleHost (fun _ hsubmit ↦ place_of_submit hsubmit) (Except.ok.inj h)
  | flush =>
    cases h
    exact (place_sendOutgoing ..).trans (place_applyRequests ..)
  | service timeout rounds => exact absurd rfl (hserves timeout rounds)
  | outside change =>
    cases h
    rfl

end LiveHost

/-! ## The searches of an operation -/

namespace LiveHost

variable {σ : Type} (env : Environment σ)

/-- The search of a round of serving, if it comes to one. -/
def roundSearches (live : LiveHost σ) : List Host :=
  if (live.opening env).host.pending.isEmpty then
    match (live.opening env).receiveIncoming env with
    | .ok received =>
      if received.host.pending.isEmpty then (received.sendOutgoing env true).host.searches else []
    | .error _ => []
  else
    []

def roundsSearches (deadline : Stamp) : Nat → LiveHost σ → List Host
  | 0, _ => []
  | rounds + 1, live =>
    live.roundSearches env ++
      match live.serviceRound env deadline with
      | .ok (none, live) => roundsSearches deadline rounds live
      | _ => []

def serviceSearches (live : LiveHost σ) (timeout : UInt32) (rounds : Nat) : List Host :=
  (live.applyRequests env).host.searches ++
    match (live.applyRequests env).dispatch with
    | (some _, _) => []
    | (none, live) =>
      let (now, live) := live.now env
      live.roundsSearches env (now + timeout) rounds

end LiveHost

def Turn.searches {σ : Type} (env : Environment σ) (turn : Turn σ) : List Host :=
  match turn.operation with
  | .service timeout rounds => turn.before.serviceSearches env timeout rounds
  | _ => []

theorem Turn.searches_of_ne {σ : Type} (env : Environment σ) {turn : Turn σ}
    (h : ∀ timeout rounds, turn.operation ≠ .service timeout rounds) : turn.searches env = [] := by
  unfold searches
  split
  · rename_i timeout rounds heq
    exact absurd heq (h timeout rounds)
  · rfl

/-- What has become of a host: it has searched its slots now and then, each time when nothing
waited to be reported, and has left the place of the next search as it was in between. -/
inductive Quest (start : Host) : List Host → Host → Prop where
  | start : Quest start [] start
  /-- Something else has happened. -/
  | keep {past : List Host} {host after : Host} (h : Quest start past host)
      (hplace : after.place = host.place) : Quest start past after
  /-- The slots have been searched. -/
  | search {past : List Host} {host : Host} (h : Quest start past host)
      (hpending : host.pending = []) : Quest start (past ++ [host]) host.search.2

/-- One search begins where another has left off. -/
def Host.Resumes (host next : Host) : Prop := next.place = host.search.2.place

namespace Quest

variable {start host : Host} {past : List Host}

/-- Each search begins where the one before has left off. -/
theorem isChain (h : Quest start past host) : past.IsChain Host.Resumes ∧
    ∀ last ∈ past.getLast?, host.place = last.search.2.place := by
  induction h with
  | start => exact ⟨.nil, fun _ hlast ↦ by cases hlast⟩
  | keep _ hplace ih => exact ⟨ih.1, fun last hlast ↦ hplace.trans (ih.2 last hlast)⟩
  | @search past host _ _ ih =>
    constructor
    · refine ih.1.append (.singleton _) fun last hlast next hnext ↦ ?_
      cases hnext
      exact ih.2 last hlast
    · intro last hlast
      rw [List.getLast?_concat] at hlast
      cases hlast
      rfl

end Quest

namespace Host

variable {host : Host}

theorem searches_of_quiet (h : host.pending = []) : host.searches = [host] := by
  rw [searches, h]
  rfl

theorem searches_of_pending (h : host.pending ≠ []) : host.searches = [] :=
  if_neg (by rwa [List.isEmpty_iff])

/-- When nothing waits to be reported, the next event is searched for. -/
theorem dispatch_of_quiet (h : host.pending = []) : host.dispatch = host.search := by
  rw [dispatch, popEvent, h]
  rfl

theorem dispatch_of_pending (h : host.pending ≠ []) :
    ∃ event after, host.popEvent = (some event, after) ∧ host.dispatch = (some event, after) := by
  obtain hpops | ⟨hquiet, -⟩ := host.dispatch_eq
  · exact hpops
  · exact absurd hquiet h

end Host

namespace LiveHost

open Host

variable {σ : Type} (env : Environment σ) {live after : LiveHost σ} {past : List Host}
  {event : Option Event} {start : Host}

theorem dispatch_quest (h : Quest start past live.host) :
    Quest start (past ++ live.host.searches) live.dispatch.2.host := by
  change Quest start (past ++ live.host.searches) live.host.dispatch.2
  by_cases hquiet : live.host.pending = []
  · rw [searches_of_quiet hquiet, dispatch_of_quiet hquiet]
    exact h.search hquiet
  · obtain ⟨first, next, hpop, hdispatch⟩ := dispatch_of_pending hquiet
    rw [searches_of_pending hquiet, hdispatch, List.append_nil]
    exact h.keep (place_of_popEvent hpop)

/-- What a search finds is what is dispatched. -/
theorem dispatch_of_mem_searches {host : Host} (h : host ∈ live.host.searches) :
    host.search.1 = live.dispatch.1 := by
  change host.search.1 = live.host.dispatch.1
  unfold searches at h
  split at h
  · rename_i hempty
    rw [dispatch_of_quiet (List.isEmpty_iff.mp hempty), List.mem_singleton.mp h]
  · cases h

/-- The search of a round, and what comes of it. -/
theorem roundSearches_cases {deadline : Stamp}
    (h : live.serviceRound env deadline = .ok (event, after)) :
    (live.roundSearches env = [] ∧ event ≠ none ∧ after.host.place = live.host.place) ∨
      ∃ answered : LiveHost σ, answered.host.place = live.host.place ∧
        live.roundSearches env = answered.host.searches ∧
        after.host.place = answered.dispatch.2.host.place ∧
        (answered.dispatch.1 = event ∨ answered.dispatch.1 = none) := by
  have hopened := live.place_opening env
  have hpending {live popped : LiveHost σ} {first : Event}
      (hpop : live.popEvent = (some first, popped)) : live.host.pending.isEmpty = false := by
    rw [(Host.popEvent_eq_some (popEvent_eq_some hpop)).1]
    rfl
  have hsearches {middle : LiveHost σ} (hquiet : (live.opening env).host.pending = [])
      (hreceive : (live.opening env).receiveIncoming env = .ok middle) :
      live.roundSearches env = if middle.host.pending.isEmpty then
        (middle.sendOutgoing env true).host.searches else [] := by
    rw [roundSearches, hquiet, hreceive]
    rfl
  have hreceived {middle : LiveHost σ}
      (hreceive : (live.opening env).receiveIncoming env = .ok middle) :
      middle.host.place = live.host.place :=
    (place_of_receiveDatagrams env hreceive).trans hopened
  have hanswered {middle : LiveHost σ}
      (hreceive : (live.opening env).receiveIncoming env = .ok middle) :
      (middle.sendOutgoing env true).host.place = live.host.place :=
    (place_sendOutgoing env middle true).trans (hreceived hreceive)
  cases roundEnds_of_serviceRound env h with
  | opened hpop =>
    refine .inl ⟨?_, Option.some_ne_none _, ?_⟩
    · rw [roundSearches, hpending hpop]
      rfl
    · exact (place_of_popEvent (popEvent_eq_some hpop)).trans hopened
  | received hquiet hreceive hpop =>
    refine .inl ⟨?_, Option.some_ne_none _, ?_⟩
    · rw [hsearches hquiet hreceive, hpending hpop]
      rfl
    · exact (place_of_popEvent (popEvent_eq_some hpop)).trans (hreceived hreceive)
  | @answered _ middle _ hquiet hreceive hstill hdispatch =>
    refine .inr ⟨middle.sendOutgoing env true, hanswered hreceive, ?_, ?_, ?_⟩
    · rw [hsearches hquiet hreceive, hstill]
      rfl
    · rw [hdispatch]
    · rw [hdispatch]
      exact .inl rfl
  | @awaited _ middle last _ hquiet hreceive hstill hdispatch hawait =>
    refine .inr ⟨middle.sendOutgoing env true, hanswered hreceive, ?_, ?_, ?_⟩
    · rw [hsearches hquiet hreceive, hstill]
      rfl
    · have hlast := await_host env last deadline
      rw [hawait] at hlast
      rw [hlast, hdispatch]
    · rw [hdispatch]
      exact .inr rfl

theorem serviceRound_quest {deadline : Stamp} (hquest : Quest start past live.host)
    (h : live.serviceRound env deadline = .ok (event, after)) :
    Quest start (past ++ live.roundSearches env) after.host := by
  obtain ⟨hnone, -, hplace⟩ | ⟨answered, hanswered, hsearches, hplace, -⟩ :=
    roundSearches_cases env h
  · rw [hnone, List.append_nil]
    exact hquest.keep hplace
  · rw [hsearches]
    exact (dispatch_quest (hquest.keep hanswered)).keep hplace

theorem serviceRounds_quest {deadline : Stamp} {rounds : Nat}
    (hquest : Quest start past live.host)
    (h : live.serviceRounds env deadline rounds = .ok (event, after)) :
    Quest start (past ++ live.roundsSearches env deadline rounds) after.host := by
  replace h := roundsEnd_of_serviceRounds env h
  induction h generalizing past with
  | spent => rwa [roundsSearches, List.append_nil]
  | found hround =>
    simp only [roundsSearches, hround, List.append_nil]
    exact serviceRound_quest env hquest hround
  | passed hround _ ih =>
    simp only [roundsSearches, hround]
    rw [← List.append_assoc]
    exact ih (serviceRound_quest env hquest hround)

theorem service_quest {timeout : UInt32} {rounds : Nat} (hquest : Quest start past live.host)
    (h : live.service env timeout rounds = .ok (event, after)) :
    Quest start (past ++ live.serviceSearches env timeout rounds) after.host := by
  have hdispatched := dispatch_quest (hquest.keep (place_applyRequests env live))
  cases serviceEnds_of_service env h with
  | dispatched hdispatch =>
    rw [hdispatch] at hdispatched
    simp only [serviceSearches, hdispatch, List.append_nil]
    exact hdispatched
  | @served _ middle _ hdispatch hrounds =>
    rw [hdispatch] at hdispatched
    have hstart : Quest start (past ++ (live.applyRequests env).host.searches)
        (middle.now env).2.host := hdispatched
    simp only [serviceSearches, hdispatch]
    rw [← List.append_assoc]
    exact serviceRounds_quest env hstart hrounds

/-! ## What is found -/

theorem serviceRounds_found {deadline : Stamp} {rounds : Nat} {host : Host} {found : Event}
    (h : live.serviceRounds env deadline rounds = .ok (event, after))
    (hhost : host ∈ live.roundsSearches env deadline rounds)
    (hfound : host.search.1 = some found) : event = some found := by
  have hfirst {live after : LiveHost σ} {event : Option Event}
      (hround : live.serviceRound env deadline = .ok (event, after))
      (hmem : host ∈ live.roundSearches env) : event = some found := by
    obtain ⟨hnone, -⟩ | ⟨answered, -, hsearches, -, hevent⟩ := roundSearches_cases env hround
    · rw [hnone] at hmem
      cases hmem
    · rw [hsearches] at hmem
      rw [← dispatch_of_mem_searches hmem, hfound] at hevent
      exact (hevent.resolve_right (Option.some_ne_none _)).symm
  replace h := roundsEnd_of_serviceRounds env h
  induction h with
  | spent => cases hhost
  | found hround =>
    simp only [roundsSearches, hround, List.append_nil] at hhost
    exact hfirst hround hhost
  | passed hround _ ih =>
    simp only [roundsSearches, hround, List.mem_append] at hhost
    obtain hmem | hmem := hhost
    · cases hfirst hround hmem
    · exact ih hmem

/-- What a search finds is the event that is returned. -/
theorem service_found {timeout : UInt32} {rounds : Nat} {host : Host} {found : Event}
    (h : live.service env timeout rounds = .ok (event, after))
    (hhost : host ∈ live.serviceSearches env timeout rounds)
    (hfound : host.search.1 = some found) : event = some found := by
  have hfirst (hmem : host ∈ (live.applyRequests env).host.searches) :
      (live.applyRequests env).dispatch.1 = some found :=
    (dispatch_of_mem_searches hmem).symm.trans hfound
  cases serviceEnds_of_service env h with
  | dispatched hdispatch =>
    rw [hdispatch] at hfirst
    simp only [serviceSearches, hdispatch, List.append_nil] at hhost
    exact hfirst hhost
  | served hdispatch hrounds =>
    rw [hdispatch] at hfirst
    simp only [serviceSearches, hdispatch, List.mem_append] at hhost
    obtain hmem | hmem := hhost
    · cases hfirst hmem
    · exact serviceRounds_found env hrounds hmem hfound

end LiveHost

/-! ## Runs -/

namespace Run

variable {σ : Type} {env : Environment σ} {turns : List (Turn σ)} {live : LiveHost σ}

/-- What has become of the host in a run. -/
theorem quest (h : Run env turns live) :
    ∃ capacity incoming outgoing settings, Quest (.create capacity incoming outgoing settings)
      (turns.flatMap (·.searches env)) live.host := by
  induction h with
  | start capacity incoming outgoing settings =>
    exact ⟨capacity, incoming, outgoing, settings, .start⟩
  | @turn turns live after operation answer hrun hperform ih =>
    obtain ⟨capacity, incoming, outgoing, settings, hquest⟩ := ih
    refine ⟨capacity, incoming, outgoing, settings, ?_⟩
    rw [List.flatMap_append, List.flatMap_singleton]
    by_cases hserves : ∃ timeout rounds, operation = .service timeout rounds
    · obtain ⟨timeout, rounds, rfl⟩ := hserves
      exact LiveHost.service_quest env hquest (LiveHost.service_of_perform env hperform)
    · have hother (timeout : UInt32) (rounds : Nat) : operation ≠ .service timeout rounds :=
        fun heq ↦ hserves ⟨timeout, rounds, heq⟩
      rw [Turn.searches_of_ne env hother, List.append_nil]
      exact hquest.keep (LiveHost.place_of_perform env hperform hother)

/-- What a search finds in a step of a run is the answer of that step. -/
theorem answer_of_search (h : Run env turns live) {turn : Turn σ} (hturn : turn ∈ turns)
    {host : Host} (hhost : host ∈ turn.searches env) {found : Event}
    (hfound : host.search.1 = some found) : turn.answer = .returned found := by
  induction h with
  | start => cases hturn
  | @turn turns live after operation answer _ hperform ih =>
    rcases List.mem_append.mp hturn with hearlier | hlast
    · exact ih hearlier
    · cases List.mem_singleton.mp hlast
      unfold Turn.searches at hhost
      split at hhost
      · rename_i timeout rounds heq
        cases heq
        exact Answer.event?_eq_some.mp
          (LiveHost.service_found env (LiveHost.service_of_perform env hperform) hhost hfound)
      · cases hhost

end Run

end ReliableDatagram
