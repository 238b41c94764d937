import ReliableDatagram.Proofs.Host.Departures
import ReliableDatagram.Proofs.Host.Introductions

/-!
# Departures and the sharing of bandwidth

A connection that leaves its slot leaves its part of the bandwidth to the others, so its departure
asks for the sharing. Wherever the host itself finds that a connection is over, it asks for it
and returns to the application, so that the request is still there when an operation is done.
But where the application frees a slot itself, and where it leaves a connection whose other end
has left, the part of the connection is not handed out before something else asks for that.
-/

namespace ReliableDatagram

namespace StepKind

/-- Connections go on or are put into vacant slots, and those leave that are over, with a report. -/
def Serves : StepKind → Prop
  | internal | receives | opens => True
  | leaves departure => departure.manner = .reported
  | _ => False

/-- While a host serves, no connection is dismissed, and where one leaves that stands, the
application is `told`. -/
def Settles (told : Prop) : StepKind → Prop
  | internal | receives | opens | shares | reports => True
  | leaves departure =>
    departure.manner ≠ .dismissed ∧ (departure.peer.state.isStanding = true → told)
  | limits | alters => False

variable {kind : StepKind} {told heard : Prop}

theorem IsSending.serves {check : Bool} (h : kind.IsSending check) : kind.Serves := by
  cases kind with
  | internal => trivial
  | leaves => exact h.2
  | _ => cases h

theorem FindsEnded.settles (h : kind.FindsEnded told) : kind.Settles told := by
  cases kind with
  | internal => trivial
  | leaves departure =>
    refine ⟨?_, fun _ ↦ h.2⟩
    rw [h.1]
    exact Manner.noConfusion
  | _ => cases h

theorem Settles.mono (h : kind.Settles told) (htold : told → heard) : kind.Settles heard := by
  cases kind with
  | internal | receives | opens | shares | reports => trivial
  | leaves departure => exact ⟨h.1, fun hstanding ↦ htold (h.2 hstanding)⟩
  | limits | alters => cases h

end StepKind

namespace Host

variable {host start middle after : Host} {id : PeerId} {kind : StepKind} {told : Prop}

/-! ## What a departure leaves behind -/

/-- The sharing is asked for, and there is something to report. -/
def Notified (host : Host) : Prop := host.allocator.recalculate = true ∧ host.pending ≠ []

theorem notified_reportDeparture {state : PeerState} (hstanding : state.isStanding = true)
    (host : Host) (id : PeerId) : (host.reportDeparture id state).Notified := by
  have hboth : (host.requestRecalculation.pushEvent (.disconnected id)).Notified :=
    ⟨rfl, List.append_ne_nil_of_right_ne_nil _ (List.cons_ne_nil _ _)⟩
  cases state with
  | connected | disconnecting | acknowledgingDisconnect | zombie => exact hboth
  | disconnected | connecting | acknowledgingConnect => cases hstanding

theorem Notified.reportDeparture (h : host.Notified) (id : PeerId) (state : PeerState) :
    (host.reportDeparture id state).Notified := by
  by_cases hstanding : state.isStanding = true
  · exact notified_reportDeparture hstanding host id
  · refine ⟨?_, ?_⟩
    · cases state <;> first | exact h.1 | rfl
    · rw [pending_reportDeparture]
      exact List.append_ne_nil_of_left_ne_nil h.2 _

/-- What is asked for and what waits stays so while no event is returned and nothing is shared. -/
theorem Step.notified (h : host.Step kind after) (hserves : kind.Serves)
    (hnotified : host.Notified) : after.Notified := by
  have hpushed (event : Event) : (host.pushEvent event).Notified :=
    ⟨hnotified.1, List.append_ne_nil_of_left_ne_nil hnotified.2 _⟩
  cases h with
  | advance | sweep | receives => exact hnotified
  | fail cause => exact hpushed _
  | note _ hpending hallocator => exact ⟨hallocator ▸ hnotified.1, hpending ▸ hnotified.2⟩
  | @ends id peer =>
    have hreleased : (host.release id).Notified := hnotified
    exact hreleased.reportDeparture id peer.state
  | connects => exact ⟨rfl, List.append_ne_nil_of_left_ne_nil hnotified.2 _⟩
  | opens _ _ hpending hallocator => exact ⟨hallocator ▸ hnotified.1, hpending ▸ hnotified.2⟩
  | finds | dismisses => cases hserves
  | limits | shares | reports | alters => cases hserves

theorem Steps.notified (h : Steps StepKind.Serves host after) (hnotified : host.Notified) :
    after.Notified := by
  induction h with
  | refl => exact hnotified
  | tail _ hstep ih =>
    obtain ⟨kind, hkind, hdone⟩ := hstep
    exact hdone.notified hkind ih

/-- When a connection has left that stood, the sharing is asked for, and there is something to
report until that is returned. -/
theorem Steps.settles (h : Steps StepKind.Serves host after) :
    Steps (StepKind.Settles after.Notified) host after := by
  induction h using Relation.ReflTransGen.head_induction_on with
  | refl => exact .refl
  | head hstep hrest ih =>
    obtain ⟨kind, hkind, hdone⟩ := hstep
    refine .head ⟨kind, ?_, hdone⟩ ih
    cases hdone with
    | advance | sweep | fail | note | receives | connects | opens => trivial
    | @ends id peer =>
      refine ⟨Manner.noConfusion, fun hstanding ↦ ?_⟩
      exact Steps.notified hrest (notified_reportDeparture hstanding _ id)
    | finds | dismisses => cases hkind
    | limits | shares | reports | alters => cases hkind

/-- If there is nothing to report, no connection has left that stood. -/
theorem Steps.settles_of_pending (h : Steps StepKind.Serves host after)
    (hpending : after.pending = []) (told : Prop) : Steps (StepKind.Settles told) host after :=
  h.settles.mono fun _ hkind ↦ hkind.mono fun hnotified ↦ absurd hpending hnotified.2

/-! ## Commands and datagrams -/

theorem Outcome.steps {goesOn : Bool} (h : Outcome host id goesOn after) :
    Steps StepKind.Serves host after := by
  cases h with
  | absent => exact .refl
  | goesOn hhost hnext => exact (Step.receives hhost hnext.continues).steps trivial
  | connected hhost hnext => exact (Step.connects hhost hnext.continues).steps trivial
  | ends hhost =>
    rw [release_setPeer hhost]
    exact (Step.ends hhost).steps rfl

theorem steps_of_handleCommands {header : Header} {address : Address} {context : Context}
    {count : Nat} {bytes : Bytes}
    (h : handleCommands header address context count (some id) bytes host = .ok after) :
    Steps StepKind.Serves host after :=
  handleCommands_preserves (Steps StepKind.Serves host)
    (fun hbefore hhandle ↦ hbefore.trans (handleCommand_outcome hhandle).steps) h .refl

theorem steps_of_handleContent {address : Address} {header : Header} {length : Nat}
    {content : Bytes} {now : Stamp}
    (h : host.handleContent address header length content now = .ok after)
    (hsound : host.table.Sound) : Steps StepKind.Serves host after := by
  cases delivers_of_handleContent h hsound with
  | nothing => exact .refl
  | @opened _ _ _ middle _ _ _ _ hopens hrest haccept =>
    have hallocator : middle.allocator = host.allocator := by
      obtain ⟨-, _, _, _, -, -, rfl⟩ := accept_eq_ok haccept
      rfl
    have hdone : host.Step .opens middle :=
      .opens hopens.vacant hopens.others hopens.pending hallocator
    exact (hdone.steps trivial).trans (steps_of_handleCommands hrest)
  | @named peer _ _ _ _ _ hbelongs hcommands =>
    have hcounted : peer.Continues ((peer.relocate address).recordReceived length) :=
      .tail (.single (.relocate _)) (.recordReceived _)
    have hdone := Step.receives hbelongs.slot hcounted
    exact (hdone.steps trivial).trans (steps_of_handleCommands hcommands)

/-! ## The next event -/

/-- Serving returns an event, and the sharing is asked for. -/
def Hands (event : Option Event) (after : Host) : Prop :=
  event ≠ none ∧ after.allocator.recalculate = true

theorem Steps.popEvent {event : Event} (h : Steps StepKind.Serves start middle)
    (hpop : middle.popEvent = (some event, after)) :
    Steps (StepKind.Settles (Hands (some event) after)) start after := by
  have hallocator : after.allocator = middle.allocator := by
    unfold Host.popEvent at hpop
    split at hpop <;> cases hpop
    rfl
  refine .tail (h.settles.mono fun _ hkind ↦ hkind.mono fun hnotified ↦ ?_)
    ⟨.reports, trivial, .reports hpop⟩
  exact ⟨Option.some_ne_none event, hallocator ▸ hnotified.1⟩

theorem Steps.dispatch (h : Steps StepKind.Serves start host) :
    Steps (StepKind.Settles (Hands host.dispatch.1 host.dispatch.2)) start host.dispatch.2 := by
  unfold Host.dispatch
  cases hpop : host.popEvent with
  | mk found next =>
    cases found with
    | some event => exact h.popEvent hpop
    | none =>
      obtain ⟨hpending, rfl⟩ := popEvent_eq_none hpop
      refine (h.settles_of_pending hpending _).trans ?_
      exact (next.dispatchFrom_steps next.searchOrder).1.mono fun _ ↦ StepKind.FindsEnded.settles

end Host

namespace LiveHost

open Host

variable {σ : Type} (env : Environment σ) {live middle last after : LiveHost σ}
  {event : Option Event}

theorem receiveDatagrams_steps {count : Nat} (h : live.receiveDatagrams env count = .ok after)
    (hpending : live.host.pending = []) (hsound : live.host.table.Sound) :
    Steps StepKind.Serves live.host after.host := by
  have hsteps {host : Host} {world : σ} {middle : LiveHost σ} {address : Address}
      {datagram : Bytes} (hsound : host.table.Sound)
      (hhandle : LiveHost.handleDatagram env ⟨host, world⟩ address datagram = .ok middle) :
      Steps StepKind.Serves host middle.host := by
    rcases handleDatagram_eq_ok env hhandle with hsame | ⟨_, _, _, _, -, -, -, hcontent⟩
    · rw [hsame]
    · exact steps_of_handleContent hcontent hsound
  replace h := receptionEnds_of_receiveDatagrams env h
  induction h with
  | enough => exact .refl
  | failed => exact (Step.fail _).steps trivial
  | idle => exact .refl
  | reported _ hhandle => exact hsteps hsound hhandle
  | passed _ hhandle hquiet _ ih =>
    have htakes := handleDatagram_takes env hhandle hpending hsound
    exact (hsteps hsound hhandle).trans (ih hquiet (htakes.sound hsound))

theorem dispatch_steps {start : Host} (h : Steps StepKind.Serves start live.host) :
    Steps (StepKind.Settles (Hands live.dispatch.1 live.dispatch.2.host)) start
      live.dispatch.2.host := Steps.dispatch h

/-! ## Serving -/

/-- Whatever a round of serving finds to be over, it asks for the sharing and returns. -/
theorem serviceRound_steps {deadline : Stamp}
    (h : live.serviceRound env deadline = .ok (event, after)) (hsound : live.host.table.Sound) :
    Steps (StepKind.Settles (Hands event after.host)) live.host after.host := by
  have hshared {told : Prop} : Steps (StepKind.Settles told) live.host
      (live.host.allocateBandwidth (live.now env).1) := (Step.shares _).steps trivial
  have hopening : Steps StepKind.Serves (live.host.allocateBandwidth (live.now env).1)
      (live.opening env).host :=
    (sendOutgoing_steps env true ((live.now env).2.mapHost
      (·.allocateBandwidth (live.now env).1))).mono fun _ ↦ StepKind.IsSending.serves
  have hreceived {middle : LiveHost σ} (hquiet : (live.opening env).host.pending = [])
      (hreceive : (live.opening env).receiveIncoming env = .ok middle) :
      Steps StepKind.Serves (live.host.allocateBandwidth (live.now env).1) middle.host :=
    hopening.trans (receiveDatagrams_steps env hreceive hquiet
      ((live.opening_passes env).sound hsound))
  have hanswered {middle last : LiveHost σ} {found : Option Event}
      (hmiddle : Steps StepKind.Serves (live.host.allocateBandwidth (live.now env).1) middle.host)
      (hdispatch : (middle.sendOutgoing env true).dispatch = (found, last)) :
      Steps (StepKind.Settles (Hands found last.host))
        (live.host.allocateBandwidth (live.now env).1) last.host := by
    have hsent := (sendOutgoing_steps env true middle).mono fun _ ↦ StepKind.IsSending.serves
    have hdispatched := dispatch_steps (hmiddle.trans hsent)
    rwa [hdispatch] at hdispatched
  cases roundEnds_of_serviceRound env h with
  | opened hpop => exact hshared.trans (hopening.popEvent (popEvent_eq_some hpop))
  | received hquiet hreceive hpop =>
    exact hshared.trans ((hreceived hquiet hreceive).popEvent (popEvent_eq_some hpop))
  | answered hquiet hreceive _ hdispatch =>
    exact hshared.trans (hanswered (hreceived hquiet hreceive) hdispatch)
  | @awaited _ _ last _ hquiet hreceive _ hdispatch hawait =>
    have hlast := hanswered (hreceived hquiet hreceive) hdispatch
    have hsame : after.host = last.host := by
      rw [← await_host env last deadline, hawait]
    rw [hsame]
    exact hshared.trans (hlast.mono fun _ hkind ↦ hkind.mono fun hhands ↦ absurd rfl hhands.1)

theorem serviceRounds_steps {deadline : Stamp} {rounds : Nat}
    (h : live.serviceRounds env deadline rounds = .ok (event, after))
    (hsound : live.host.table.Sound) (hpending : live.host.pending = []) :
    Steps (StepKind.Settles (Hands event after.host)) live.host after.host := by
  replace h := roundsEnd_of_serviceRounds env h
  induction h with
  | spent => exact .refl
  | found hround => exact serviceRound_steps env hround hsound
  | passed hround _ ih =>
    have hserved := serviceRound_served env hround hsound hpending
    have hrest := ih hserved.sound (hserved.waits rfl)
    refine Steps.trans ((serviceRound_steps env hround hsound).mono fun _ hkind ↦ ?_) hrest
    exact hkind.mono fun hhands ↦ absurd rfl hhands.1

/-- Serving carries out the requests first. -/
theorem service_steps {timeout : UInt32} {rounds : Nat}
    (h : live.service env timeout rounds = .ok (event, after)) (hsound : live.host.table.Sound) :
    Steps (StepKind.Settles (Hands event after.host)) (live.applyRequests env).host after.host := by
  have hrequests : (live.applyRequests env).host.table.Sound :=
    (live.applyRequests_localRun env).sound hsound
  have hdispatched : Steps (StepKind.Settles (Hands (live.applyRequests env).dispatch.1
      (live.applyRequests env).dispatch.2.host)) (live.applyRequests env).host
        (live.applyRequests env).dispatch.2.host := dispatch_steps .refl
  obtain ⟨last, hrun, hconcludes⟩ := (live.applyRequests env).dispatch_concludes
  cases serviceEnds_of_service env h with
  | dispatched hdispatch => rwa [hdispatch] at hdispatched
  | served hdispatch hrounds =>
    rw [hdispatch] at hdispatched hconcludes
    obtain ⟨rfl, hquiet⟩ := hconcludes.quiet
    have hserved := serviceRounds_steps env hrounds (hrun.sound hrequests) hquiet
    refine Steps.trans (hdispatched.mono fun _ hkind ↦ ?_) hserved
    exact hkind.mono fun hhands ↦ absurd rfl hhands.1

end LiveHost

/-! ## Operations -/

/-- The application leaves connections, or has the host leave them, without serving. -/
def Operation.Leaves {σ : Type} : Operation σ → Prop
  | .disconnect _ | .disconnectNow _ | .resetPeer _ | .flush => True
  | _ => False

/-- The steps that an operation is made of. Where a connection leaves that stands, the sharing is
asked for when the operation is done, unless the connection is dismissed; and that happens only
where the application frees the slot itself, or has left the connection when its other end had
left it before. -/
def StepKind.Complies {σ : Type} (env : Environment σ) (live : LiveHost σ) (operation : Operation σ)
    (after : LiveHost σ) : StepKind → Prop
  | .internal => True
  | .leaves departure => departure.peer.state.isStanding = true →
      departure.manner ≠ .dismissed ∧ after.host.allocator.recalculate = true ∨
        departure.manner = .dismissed ∧
          (operation.Dismisses departure.id ∨ live.Abandons env departure.id operation)
  | .receives | .shares | .reports => ∃ timeout rounds, operation = .service timeout rounds
  | .opens => (∃ timeout rounds, operation = .service timeout rounds) ∨
      ∃ address channelCount challenge, operation = .connect address channelCount challenge
  | .limits => ∃ incoming outgoing, operation = .limitBandwidth incoming outgoing
  | .alters => ∃ id alter, operation = .change id alter

namespace StepKind

variable {σ : Type} {env : Environment σ} {live after : LiveHost σ} {operation : Operation σ}
  {kind : StepKind}

theorem DismissesOnly.complies
    (h : kind.DismissesOnly fun id ↦ operation.Dismisses id ∨ live.Abandons env id operation) :
    kind.Complies env live operation after := by
  cases kind with
  | internal => trivial
  | leaves departure => exact fun hstanding ↦ .inr ⟨h.1, h.2 hstanding⟩
  | _ => cases h

theorem Settles.complies {timeout : UInt32} {rounds : Nat}
    (h : kind.Settles (after.host.allocator.recalculate = true)) :
    kind.Complies env live (.service timeout rounds) after := by
  cases kind with
  | internal => trivial
  | leaves departure => exact fun hstanding ↦ .inl ⟨h.1, h.2 hstanding⟩
  | receives | shares | reports => exact ⟨timeout, rounds, rfl⟩
  | opens => exact .inl ⟨timeout, rounds, rfl⟩
  | limits | alters => cases h

end StepKind

namespace LiveHost

open Host

variable {σ : Type} (env : Environment σ) {live after : LiveHost σ} {operation : Operation σ}
  {answer : Answer}

theorem service_complies {timeout : UInt32} {rounds : Nat} {event : Option Event}
    (h : live.service env timeout rounds = .ok (event, after)) (hsound : live.host.table.Sound) :
    Steps (StepKind.Complies env live (.service timeout rounds) after) live.host after.host := by
  have hrequests : Steps (StepKind.Complies env live (.service timeout rounds) after)
      live.host (live.applyRequests env).host := by
    apply (live.applyRequests_steps env).mono
    intro kind hkind
    exact (hkind.mono fun _ ↦ .inr).complies
  apply hrequests.trans
  apply (service_steps env h hsound).mono
  intro kind hkind
  exact (hkind.mono And.right).complies

theorem connect_complies {address : Address} {channelCount : Nat} {challenge : UInt32}
    (h : live.perform env (.connect address channelCount challenge) = .ok (answer, after))
    (hsound : live.host.table.Sound) :
    Steps (StepKind.Complies env live (.connect address channelCount challenge) after)
      live.host after.host := by
  obtain ⟨-, hsame⟩ | ⟨id, -, hconnect⟩ := connect_of_perform env h
  · rw [hsame]
  · obtain ⟨error, heq, -⟩ | ⟨opened, slot, table, _, _, peer, -, hallocate, -, hafter⟩ :=
      connect_eq_ok env hconnect
    · cases heq
    · obtain ⟨-, hvacant, -, hothers⟩ := hsound.allocate hallocate
      have hopens : live.host.Step .opens after.host := by
        rw [hafter]
        refine .opens hvacant (fun other hne ↦ ?_) rfl rfl
        exact (SlotTable.get?_set_of_ne table peer hne).trans (hothers other hne)
      exact hopens.steps (.inr ⟨address, channelCount, challenge, rfl⟩)

theorem change_complies {id : PeerId} {alter : Peer → Peer}
    (h : live.perform env (.change id alter) = .ok (answer, after)) :
    Steps (StepKind.Complies env live (.change id alter) after) live.host after.host := by
  apply settleHost_steps ?_ (Except.ok.inj h)
  intro next hchanged
  obtain ⟨peer, hpeer, rfl⟩ := updatePeer_eq_ok hchanged
  exact (Step.alters hpeer (alter peer)).steps ⟨id, alter, rfl⟩

theorem perform_complies (h : live.perform env operation = .ok (answer, after))
    (hsound : live.host.table.Sound) :
    Steps (StepKind.Complies env live operation after) live.host after.host := by
  cases operation with
  | service => exact service_complies env (service_of_perform env h) hsound
  | connect => exact connect_complies env h hsound
  | change => exact change_complies env h
  | limitBandwidth incoming outgoing =>
    cases h
    exact (Step.limits incoming outgoing).steps ⟨incoming, outgoing, rfl⟩
  | _ =>
    -- What is left dismisses connections at most.
    apply (perform_steps env h trivial (by rintro _ _ ⟨⟩) (by rintro _ _ ⟨⟩)).mono
    intro kind hkind
    exact hkind.complies

/-- A connection that stands goes on in its slot, or the sharing is asked for, unless the
application dismisses or abandons the connection. -/
theorem perform_keeps {id : PeerId} {peer : Peer}
    (h : live.perform env operation = .ok (answer, after)) (hsound : live.host.table.Sound)
    (hpeer : live.host.peer? id = some peer) (hstanding : peer.state.isStanding = true) :
    (∃ next, after.host.peer? id = some next ∧ peer.Continues next) ∨
      after.host.allocator.recalculate = true ∨
      operation.Dismisses id ∨ live.Abandons env id operation := by
  by_cases halters : StepKind.Complies env live operation after .alters
  · -- An alteration frees no slot.
    obtain ⟨slot, alter, rfl⟩ := halters
    obtain ⟨-, hchanged | hsame⟩ := settleHost_eq (Except.ok.inj h)
    · obtain ⟨old, hold, hafter⟩ := updatePeer_eq_ok hchanged
      by_cases hgoes : ∀ peer, Peer.Continues peer (alter peer)
      · exact .inl (hafter ▸ continues_setPeer hpeer hold (hgoes old))
      · by_cases heq : slot = id
        · exact .inr (.inr (.inl ⟨heq, hgoes⟩))
        · refine .inl ⟨peer, ?_, .refl⟩
          rw [hafter, peer?_setPeer_of_ne hold (Ne.symm heq), hpeer]
    · exact .inl ⟨peer, hsame ▸ hpeer, .refl⟩
  · obtain hgoes | ⟨last, manner, hcontinues, hcomplies⟩ :=
      (live.perform_complies env h hsound).continues halters hpeer
    · exact .inl hgoes
    · obtain ⟨-, hasked⟩ | ⟨-, hfreed⟩ := hcomplies (hcontinues.isStanding hstanding)
      · exact .inr (.inl hasked)
      · exact .inr (.inr hfreed)

end LiveHost

namespace Run

open Host

variable {σ : Type} {env : Environment σ} {live after : LiveHost σ} {operation : Operation σ}
  {answer : Answer} {turns : List (Turn σ)}

/-- Whenever a connection that stands leaves its slot, the sharing is asked for when the operation
is done, unless the application dismisses or abandons the connection. So it is when a connection
that stood before does not go on in its slot. Leaving connections without serving never asks for
the sharing. -/
theorem redistributes_unless_dismissed (h : Run env turns live)
    (hperform : live.perform env operation = .ok (answer, after)) :
    Steps (StepKind.Complies env live operation after) live.host after.host ∧
      (∀ id peer, live.host.peer? id = some peer → peer.state.isStanding = true →
        (∃ next, after.host.peer? id = some next ∧ peer.Continues next) ∨
          after.host.allocator.recalculate = true ∨
          operation.Dismisses id ∨ live.Abandons env id operation) ∧
      (operation.Leaves → after.host.allocator = live.host.allocator) := by
  have hsound := h.sound.1
  refine ⟨live.perform_complies env hperform hsound, fun id peer hpeer hstanding ↦ ?_,
    fun hleaves ↦ ?_⟩
  · exact live.perform_keeps env hperform hsound hpeer hstanding
  · have haccepts : operation.Accepts := by
      cases operation with
      | connect | change => cases hleaves
      | _ => trivial
    exact (live.perform_steps env hperform haccepts (by rintro timeout rounds rfl; cases hleaves)
      (by rintro incoming outgoing rfl; cases hleaves)).allocator_eq

/-- Another host asks for a connection and confirms it, and then the bandwidth is shared. -/
def stay : List (Operation Script) := [
  .outside fun script ↦ { script with arriving := [(Reported.request, ⟨"10.0.0.9", 9⟩)] },
  .service 0 1,
  .outside fun script ↦ { script with arriving := [(confirmation, ⟨"10.0.0.9", 9⟩)] },
  .service 0 1,
  .outside fun script ↦ { script with elapsed := 1000 },
  .service 0 1]

/-- If the application frees the slot of the connection then, nothing asks for the sharing. -/
theorem dismissed_stay :
    ∃ turns live after, rehearse stay = some (turns, live) ∧
      live.perform Script.environment (.disconnectNow 0) = .ok (.done, after) ∧
      (live.host.peer? 0).map (·.state) = some .connected ∧ after.host.peer? 0 = none ∧
      after.host.allocator.recalculate = false := by
  have hreplay : (rehearse stay).any fun replayed ↦
      (replayed.2.perform Script.environment (.disconnectNow 0)).toOption.any fun performed ↦
        performed.1 = .done ∧ (replayed.2.host.peer? 0).map (·.state) = some .connected ∧
          (performed.2.host.peer? 0).isNone ∧ replayed.2.host.allocator.recalculate = false := by
    decide +kernel
  obtain ⟨⟨turns, live⟩, hlive, hdismissed⟩ := (Option.any_eq_true _ _).mp hreplay
  obtain ⟨⟨answer, after⟩, hperform, hleft⟩ := exists_of_any_toOption hdismissed
  obtain ⟨rfl, hconnected, hvacant, hshared⟩ := of_decide_eq_true hleft
  have hsame := ((run_of_rehearse hlive).redistributes_unless_dismissed hperform).2.2 trivial
  exact ⟨turns, live, after, hlive, hperform, hconnected, Option.isNone_iff_eq_none.mp hvacant,
    hsame ▸ hshared⟩

end Run

end ReliableDatagram
