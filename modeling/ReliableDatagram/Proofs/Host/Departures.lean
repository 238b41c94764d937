import ReliableDatagram.Proofs.Host.Vacancy

/-!
# Connections that were reported to stand

Once the application has been told that a connection stands, the connection leaves its slot
together with exactly one report of its end, which is returned or waits to be. The application
can forgo the report by freeing the slot itself. There is one more way out of the slot: if the
other end has left, but the confirmation has not been sent yet, then leaving the connection
frees the slot at once, and nothing is reported.
-/

namespace ReliableDatagram

namespace LiveHost

open Host

variable {σ : Type} (env : Environment σ) {live after : LiveHost σ} {answer : Answer}
  {operation : Operation σ} {id : PeerId} {peer : Peer}

/-- The host as it is when an operation has left the connections that it is to leave. -/
def leave (live : LiveHost σ) : Operation σ → LiveHost σ
  | .disconnect id => live.applyRequest env (.disconnect id)
  | .flush | .service _ _ => live.applyRequests env
  | _ => live

/-- A connection that is abandoned leaves its slot without a report. -/
theorem Abandons.silent (h : live.Abandons env id operation)
    (hpeer : live.host.peer? id = some peer) (hstanding : peer.state.isStanding = true) :
    (live.leave env operation).host.peer? id = none ∧
      (live.leave env operation).host.departures id = live.host.departures id := by
  cases operation with
  | disconnect other => exact applyAll_silent env live [.disconnect other] hpeer hstanding h
  | flush => exact applyAll_silent env live.emptied _ hpeer hstanding h
  | service timeout rounds => exact applyAll_silent env live.emptied _ hpeer hstanding h
  | _ => cases h

/-- Serving lets a connection go on, or ends it with one report, unless it is abandoned. -/
theorem service_serves {timeout : UInt32} {rounds : Nat} {event : Option Event}
    (h : live.service env timeout rounds = .ok (event, after)) (hsound : live.host.table.Sound)
    (hpeer : live.host.peer? id = some peer) (hstands : live.host.Stands id)
    (hkept : ¬ live.Abandons env id (.service timeout rounds)) :
    Serves id live.host event after.host := by
  have hstanding := hstands peer hpeer
  have hmoves := (live.applyRequests_acts env).moves id ⟨hstands, hkept⟩
  rcases service_served env h hsound with ⟨first, rfl, hpop⟩ | ⟨hempty, hserved⟩
  · exact hmoves.serves hpeer hstanding (peer?_of_popEvent hpop id) (reports_popEvent hpop id)
  · obtain ⟨next, hnext, hcontinues, hnextstanding, hcount⟩ :=
      hmoves.goesOn_of_pending hpeer hstanding hempty
    exact (hserved.serves id next hnext hnextstanding).of_goesOn hpeer hnext hcontinues hcount

/-- So does every operation that spares the connection. -/
theorem perform_serves (h : live.perform env operation = .ok (answer, after))
    (hsound : live.host.table.Sound) (hpeer : live.host.peer? id = some peer)
    (hspares : live.Spares env operation id) : Serves id live.host answer.event? after.host := by
  have hstanding := hspares.1 peer hpeer
  cases performs_of_perform env h hsound with
  | acts hanswer hacts =>
    apply (hacts.moves id hspares).serves hpeer hstanding rfl
    apply reports_of_ne
    rw [hanswer]
    exact (Option.some_ne_none _).symm
  | @opens opened hanswer hvacant _ hpending hsame =>
    have hne : id ≠ opened := by
      rintro rfl
      rw [hvacant] at hpeer
      cases hpeer
    apply Serves.goesOn hpeer ((hsame id hne).trans hpeer) .refl
    rw [hanswer, reports, departures, departures, hpending]
    rfl
  | serves hoperation hservice =>
    subst hoperation
    exact service_serves env hservice hsound hpeer hspares.1 hspares.2.2

end LiveHost

open Host

variable {σ : Type} {env : Environment σ} {live after : LiveHost σ} {id : PeerId}
  {operation : Operation σ} {answer : Answer}

/-- The application was told that a connection stands, and the connection has not left its slot
since. -/
inductive Reported (env : Environment σ) (id : PeerId) : LiveHost σ → Prop where
  /-- The connection has just been reported. -/
  | told {turns : List (Turn σ)} {live after : LiveHost σ} {timeout : UInt32} {rounds : Nat}
      (h : Run env turns live)
      (hservice : live.service env timeout rounds = .ok (some (.connected id), after)) :
      Reported env id after
  /-- Something has happened, and the connection is still in its slot. -/
  | turn {live after : LiveHost σ} {operation : Operation σ} {answer : Answer}
      (h : Reported env id live) (hperform : live.perform env operation = .ok (answer, after))
      (hdismisses : ¬ operation.Dismisses id) (habandons : ¬ live.Abandons env id operation)
      (hslot : after.host.peer? id ≠ none) : Reported env id after

namespace Reported

/-- A connection that has just been reported stands, and no report of its end waits. -/
theorem stands_of_service {turns : List (Turn σ)} {timeout : UInt32} {rounds : Nat}
    (h : Run env turns live)
    (hservice : live.service env timeout rounds = .ok (some (.connected id), after)) :
    after.host.table.Sound ∧ (∃ peer, after.host.peer? id = some peer ∧
      peer.state.isStanding = true) ∧ after.host.departures id = 0 := by
  obtain ⟨hsound, hsilent⟩ := h.sound
  rcases live.service_served env hservice hsound with ⟨first, heq, hpop⟩ | ⟨hempty, hserved⟩
  · -- Greetings never wait.
    cases heq
    have hmem : .connected id ∈ (live.applyRequests env).host.pending := by
      rw [(popEvent_eq_some hpop).1]
      exact List.mem_cons_self
    exact absurd ((live.applyRequests_acts env).clears.connected id hmem) (hsilent id)
  · obtain ⟨peer, hpeer, hstanding⟩ := hserved.stands id rfl
    refine ⟨hserved.sound, ⟨peer, hpeer, hstanding⟩, departures_eq_zero.mpr fun hmem ↦ ?_⟩
    rw [hserved.vacant id (.inr hmem)] at hpeer
    cases hpeer

/-- A connection that was reported stands, and no report of its end waits. -/
theorem stands (h : Reported env id live) :
    live.host.table.Sound ∧ (∃ peer, live.host.peer? id = some peer ∧
      peer.state.isStanding = true) ∧ live.host.departures id = 0 := by
  induction h with
  | told hrun hservice => exact stands_of_service hrun hservice
  | @turn live after operation answer _ hperform hdismisses habandons hslot ih =>
    obtain ⟨hsound, ⟨peer, hpeer, hstanding⟩, hcount⟩ := ih
    have hstands := stands_of_isStanding hpeer hstanding
    have hserves := live.perform_serves env hperform hsound hpeer ⟨hstands, hdismisses, habandons⟩
    refine ⟨(live.perform_operates env hperform hsound).sound, ?_⟩
    cases hserves with
    | goesOn hhost hafter hnext hreports =>
      cases hhost.symm.trans hpeer
      refine ⟨⟨_, hafter, hnext.isStanding hstanding⟩, ?_⟩
      rw [hcount] at hreports
      exact Nat.eq_zero_of_add_eq_zero_right hreports
    | ends _ hafter => exact absurd hafter hslot

/-- A connection that was reported goes on in its slot, without a report of its end, or leaves
the slot together with exactly one. It leaves it without a report if it is abandoned, and, as
long as the application does not dismiss it, only then. -/
theorem accounted (h : Reported env id live)
    (hperform : live.perform env operation = .ok (answer, after))
    (hdismisses : ¬ operation.Dismisses id) :
    (¬ live.Abandons env id operation →
      (∃ peer next, live.host.peer? id = some peer ∧ after.host.peer? id = some next ∧
          peer.Continues next ∧ after.host.reports id answer.event? = 0) ∨
        after.host.peer? id = none ∧ after.host.reports id answer.event? = 1) ∧
    (live.Abandons env id operation →
      (live.leave env operation).host.peer? id = none ∧
        (live.leave env operation).host.departures id = 0) := by
  obtain ⟨hsound, ⟨peer, hpeer, hstanding⟩, hcount⟩ := h.stands
  constructor
  · intro habandons
    have hstands := stands_of_isStanding hpeer hstanding
    cases live.perform_serves env hperform hsound hpeer ⟨hstands, hdismisses, habandons⟩ with
    | goesOn hhost hafter hnext hreports =>
      exact .inl ⟨_, _, hhost, hafter, hnext, hreports.trans hcount⟩
    | ends _ hafter _ hreports =>
      rw [hcount] at hreports
      exact .inr ⟨hafter, hreports⟩
  · intro habandons
    obtain ⟨hvacant, hsame⟩ := habandons.silent env hpeer hstanding
    exact ⟨hvacant, hsame.trans hcount⟩

def request : Bytes :=
  Header.encode ⟨unassignedPeer, 0, 1, 5, 7⟩ ++
    Command.layout ⟨controlChannel, Command.acknowledgeFlag, 1,
      .connect ⟨0, 1400, 32768, 1, 0, 0, ⟨5000, 2, 2⟩⟩⟩

/-- A datagram that confirms that the connection was granted, and leaves it. -/
def farewell : Bytes :=
  Header.encode ⟨0, 0, 2, 6, 7⟩ ++
    Command.layout ⟨controlChannel, 0, 0, .acknowledge 1 1⟩ ++
    Command.layout ⟨controlChannel, Command.acknowledgeFlag, 2, .disconnect⟩

/-- Another host asks for a connection, confirms it and leaves. -/
def visit : List (Operation Script) := [
  .outside fun script ↦ { script with arriving := [(request, ⟨"10.0.0.9", 9⟩)] },
  .service 0 1,
  .outside fun script ↦ { script with arriving := [(farewell, ⟨"10.0.0.9", 9⟩)] }]

/-- The connection is reported to stand when its other end has left already. If the application
leaves it then, its slot is freed, and the end is never reported. -/
theorem abandoned_visit :
    ∃ turns live after, rehearse visit = some (turns, live) ∧
      live.service Script.environment 0 1 = .ok (some (.connected 0), after) ∧
      (after.leave Script.environment (.disconnect 0)).host.peer? 0 = none ∧
      (after.leave Script.environment (.disconnect 0)).host.departures 0 = 0 := by
  have hreplay : ((rehearse visit).any fun (_, live) ↦
      match live.service Script.environment 0 1 with
      | .error _ => false
      | .ok (event, after) => event = some (.connected 0) ∧
          (after.host.peer? 0).any (·.state = .acknowledgingDisconnect)) := by
    decide +kernel
  obtain ⟨⟨turns, live⟩, hlive, hserved⟩ := (Option.any_eq_true _ _).mp hreplay
  dsimp only at hserved
  split at hserved
  · cases hserved
  · rename_i event after hservice
    obtain ⟨rfl, hleft⟩ := of_decide_eq_true hserved
    obtain ⟨peer, hpeer, hstate⟩ := (Option.any_eq_true _ _).mp hleft
    have habandons : after.Abandons Script.environment 0 (.disconnect 0) :=
      ⟨[], [], peer, rfl, hpeer, of_decide_eq_true hstate⟩
    have hreported := Reported.told (run_of_rehearse hlive) hservice
    have hperform : after.perform Script.environment (.disconnect 0) =
        .ok (after.settle (after.disconnect Script.environment 0)) := rfl
    exact ⟨turns, live, after, hlive, hservice,
      (hreported.accounted hperform not_false).2 habandons⟩

end Reported

end ReliableDatagram
