import ReliableDatagram.Proofs.Host.Steps
import ReliableDatagram.Proofs.Host.Receiving

/-!
# The datagrams that a host handles while it serves

What happens to the connections of a host while it serves is told by the datagrams that it
handles and by its own work between them. A datagram is handled only when there is nothing to
report, and the event that is returned is taken from those that wait, or else it is found in the
slots or stands for none.
-/

namespace ReliableDatagram

structure Receipt (σ : Type) where
  before : LiveHost σ
  address : Address
  /-- As much of it as was received. -/
  datagram : Bytes

namespace LiveHost

variable {σ : Type} (env : Environment σ)

/-- The datagrams that are handled when up to so many are received. -/
def receipts : Nat → LiveHost σ → List (Receipt σ)
  | 0, _ => []
  | count + 1, live =>
    match env.receive live.world with
    | (.ok (some (datagram, address)), world) =>
      let kept := datagram.take live.host.settings.mtu.upper.toNat
      let live := { live with world := world }
      ⟨live, address, kept⟩ ::
        match live.handleDatagram env address kept with
        | .ok live => if live.host.pending.isEmpty then receipts count live else []
        | .error _ => []
    | _ => []

def roundReceipts (live : LiveHost σ) : List (Receipt σ) :=
  let (now, live) := live.now env
  match ((live.mapHost (·.allocateBandwidth now)).sendOutgoing env true).popEvent with
  | (some _, _) => []
  | (none, live) => live.receipts env receiveLimit

def roundsReceipts (deadline : Stamp) : Nat → LiveHost σ → List (Receipt σ)
  | 0, _ => []
  | rounds + 1, live =>
    live.roundReceipts env ++
      match live.serviceRound env deadline with
      | .ok (none, live) => roundsReceipts deadline rounds live
      | _ => []

def serviceReceipts (live : LiveHost σ) (timeout : UInt32) (rounds : Nat) : List (Receipt σ) :=
  match (live.applyRequests env).dispatch with
  | (some _, _) => []
  | (none, live) =>
    let (now, live) := live.now env
    live.roundsReceipts env (now + timeout) rounds

end LiveHost

def Turn.receipts {σ : Type} (env : Environment σ) (turn : Turn σ) : List (Receipt σ) :=
  match turn.operation with
  | .service timeout rounds => turn.before.serviceReceipts env timeout rounds
  | _ => []

theorem Turn.receipts_of_ne {σ : Type} (env : Environment σ) {turn : Turn σ}
    (h : ∀ timeout rounds, turn.operation ≠ .service timeout rounds) : turn.receipts env = [] := by
  unfold receipts
  split
  · rename_i timeout rounds heq
    exact absurd heq (h timeout rounds)
  · rfl

/-- What has happened since a host was in some state: the datagrams that it has handled, each
when there was nothing to report, and its own work between them. -/
inductive Trail {σ : Type} (env : Environment σ) (start : Host) :
    List (Receipt σ) → Host → Prop where
  | start : Trail env start [] start
  /-- The host has gone on while nothing arrived. -/
  | work {past : List (Receipt σ)} {host after : Host} (h : Trail env start past host)
      (hrun : host.LocalRun after) : Trail env start past after
  | receive {past : List (Receipt σ)} {live after : LiveHost σ} {address : Address}
      {datagram : Bytes} (h : Trail env start past live.host) (hpending : live.host.pending = [])
      (hhandle : live.handleDatagram env address datagram = .ok after) :
      Trail env start (past ++ [⟨live, address, datagram⟩]) after.host

inductive Host.Concludes (last : Host) : Option Event → Host → Prop where
  | reported {event : Event} {after : Host} (hpop : last.popEvent = (some event, after)) :
      Concludes last (some event) after
  /-- Nothing waits, and an event has been found in the slots, or none. -/
  | found {event : Option Event} (hpending : last.pending = []) (hfinds : last.Finds event) :
      Concludes last event last
  /-- Nothing waits, and nothing has come in the given time, or the socket has failed. -/
  | awaited {event : Event} (hpending : last.pending = [])
      (hevent : event.kind = .nothing ∨ event.kind = .failed) : Concludes last (some event) last

theorem Host.Concludes.table {last after : Host} {event : Option Event}
    (h : last.Concludes event after) : after.table = last.table := by
  cases h with
  | reported hpop => exact (popEvent_eq_some hpop).2
  | found | awaited => rfl

theorem Host.Concludes.quiet {last after : Host} (h : last.Concludes none after) :
    after = last ∧ last.pending = [] := by
  cases h with
  | found hpending => exact ⟨rfl, hpending⟩

namespace LiveHost

open Host

variable {σ : Type} (env : Environment σ) {live after : LiveHost σ} {past : List (Receipt σ)}
  {event : Option Event} {start : Host}

/-! ## One round -/

/-- The next event is the oldest one that waits, or it is found in the slots. -/
theorem dispatch_concludes (live : LiveHost σ) :
    ∃ last, live.host.LocalRun last ∧ last.Concludes live.dispatch.1 live.dispatch.2.host := by
  change ∃ last, live.host.LocalRun last ∧
    last.Concludes live.host.dispatch.1 live.host.dispatch.2
  unfold Host.dispatch
  cases hpop : live.host.popEvent with
  | mk found next =>
    cases found with
    | some event => exact ⟨live.host, .refl, .reported hpop⟩
    | none =>
      obtain ⟨hpending, rfl⟩ := Host.popEvent_eq_none hpop
      obtain ⟨hrun, hfinds⟩ := dispatchFrom_localRun live.host.searchOrder live.host
      refine ⟨_, hrun, .found ?_ hfinds⟩
      exact (dispatchFrom_dispatches live.host.searchOrder live.host).pending.trans hpending

/-- Waiting for the socket changes nothing but the surroundings. -/
theorem await_host (live : LiveHost σ) (deadline : Stamp) :
    (live.await env deadline).2.host = live.host := by
  unfold await
  dsimp only
  split
  · rfl
  · split <;> rfl

theorem await_concludes (live : LiveHost σ) (deadline : Stamp) (hpending : live.host.pending = []) :
    live.host.Concludes (live.await env deadline).1 (live.await env deadline).2.host := by
  rw [await_host]
  unfold await
  dsimp only
  split
  · exact .awaited hpending (.inl rfl)
  · split
    · exact .found hpending .nothing
    · exact .awaited hpending (.inl rfl)
    · exact .awaited hpending (.inr rfl)

theorem receiveDatagrams_trail {count : Nat} (htrail : Trail env start past live.host)
    (hpending : live.host.pending = []) (h : live.receiveDatagrams env count = .ok after) :
    Trail env start (past ++ live.receipts env count) after.host := by
  replace h := receptionEnds_of_receiveDatagrams env h
  induction h generalizing past with
  | enough => rwa [receipts, List.append_nil]
  | failed hreceive =>
    simp only [receipts, hreceive, List.append_nil]
    exact htrail.work (.single (.report (.inr rfl)))
  | idle hreceive =>
    simp only [receipts, hreceive, List.append_nil]
    exact htrail
  | reported hreceive hhandle hevent =>
    have hmore := mt List.isEmpty_iff.mp hevent
    simp only [receipts, hreceive, hhandle, if_neg hmore]
    refine .receive ?_ ?_ hhandle
    · exact htrail
    · exact hpending
  | passed hreceive hhandle hquiet _ ih =>
    simp only [receipts, hreceive, hhandle, if_pos (List.isEmpty_iff.mpr hquiet)]
    rw [List.append_cons]
    refine ih (.receive ?_ ?_ hhandle) hquiet
    · exact htrail
    · exact hpending

theorem roundReceipts_of_opened {first : Event}
    (hpop : (live.opening env).popEvent = (some first, after)) : live.roundReceipts env = [] := by
  unfold opening at hpop
  unfold roundReceipts
  dsimp only
  rw [hpop]

theorem roundReceipts_of_quiet (hquiet : (live.opening env).host.pending = []) :
    live.roundReceipts env = (live.opening env).receipts env receiveLimit := by
  cases hpop : (live.opening env).popEvent with
  | mk found popped =>
    cases found with
    | some first =>
      have hpending := (Host.popEvent_eq_some (popEvent_eq_some hpop)).1
      cases hquiet.symm.trans hpending
    | none =>
      obtain ⟨-, rfl⟩ := popEvent_eq_none hpop
      unfold opening at hpop ⊢
      unfold roundReceipts
      dsimp only
      rw [hpop]

theorem serviceRound_trail {deadline : Stamp} (htrail : Trail env start past live.host)
    (h : live.serviceRound env deadline = .ok (event, after)) :
    ∃ last, Trail env start (past ++ live.roundReceipts env) last ∧
      last.Concludes event after.host := by
  have hopening := htrail.work (live.opening_localRun env)
  have hreceived {middle : LiveHost σ} (hquiet : (live.opening env).host.pending = [])
      (hreceive : (live.opening env).receiveIncoming env = .ok middle) :
      Trail env start (past ++ live.roundReceipts env) middle.host := by
    rw [roundReceipts_of_quiet env hquiet]
    exact receiveDatagrams_trail env hopening hquiet hreceive
  have hanswered {middle last : LiveHost σ} {found : Option Event}
      (hmiddle : Trail env start (past ++ live.roundReceipts env) middle.host)
      (hdispatch : (middle.sendOutgoing env true).dispatch = (found, last)) :
      ∃ host, Trail env start (past ++ live.roundReceipts env) host ∧
        host.Concludes found last.host := by
    obtain ⟨host, hrun, hconcludes⟩ := (middle.sendOutgoing env true).dispatch_concludes
    rw [hdispatch] at hconcludes
    exact ⟨host, (hmiddle.work (sendOutgoing_localRun env true middle)).work hrun, hconcludes⟩
  cases roundEnds_of_serviceRound env h with
  | opened hpop =>
    rw [roundReceipts_of_opened env hpop, List.append_nil]
    exact ⟨_, hopening, .reported (popEvent_eq_some hpop)⟩
  | received hquiet hreceive hpop =>
    exact ⟨_, hreceived hquiet hreceive, .reported (popEvent_eq_some hpop)⟩
  | answered hquiet hreceive _ hdispatch => exact hanswered (hreceived hquiet hreceive) hdispatch
  | @awaited _ _ last _ hquiet hreceive _ hdispatch hawait =>
    obtain ⟨host, hhost, hconcludes⟩ := hanswered (hreceived hquiet hreceive) hdispatch
    obtain ⟨heq, hpending⟩ := hconcludes.quiet
    rw [← heq] at hhost hpending
    have hlast := await_concludes env last deadline hpending
    rw [hawait] at hlast
    exact ⟨last.host, hhost, hlast⟩

/-! ## Serving -/

theorem serviceRounds_trail {deadline : Stamp} {rounds : Nat}
    (htrail : Trail env start past live.host) (hpending : live.host.pending = [])
    (h : live.serviceRounds env deadline rounds = .ok (event, after)) :
    ∃ last, Trail env start (past ++ live.roundsReceipts env deadline rounds) last ∧
      last.Concludes event after.host := by
  replace h := roundsEnd_of_serviceRounds env h
  induction h generalizing past with
  | spent =>
    rw [roundsReceipts, List.append_nil]
    exact ⟨_, htrail, .found hpending .nothing⟩
  | found hround =>
    simp only [roundsReceipts, hround, List.append_nil]
    exact serviceRound_trail env htrail hround
  | passed hround _ ih =>
    obtain ⟨last, hlast, hconcludes⟩ := serviceRound_trail env htrail hround
    obtain ⟨heq, hquiet⟩ := hconcludes.quiet
    rw [← heq] at hlast hquiet
    simp only [roundsReceipts, hround]
    rw [← List.append_assoc]
    exact ih hlast hquiet

/-- What a host does while it serves. -/
theorem service_trail {timeout : UInt32} {rounds : Nat}
    (h : live.service env timeout rounds = .ok (event, after)) :
    ∃ last, Trail env live.host (live.serviceReceipts env timeout rounds) last ∧
      last.Concludes event after.host := by
  have hrequests : Trail env live.host [] (live.applyRequests env).host :=
    .work .start (live.applyRequests_localRun env)
  obtain ⟨last, hrun, hconcludes⟩ := (live.applyRequests env).dispatch_concludes
  have hlast := hrequests.work hrun
  cases serviceEnds_of_service env h with
  | dispatched hdispatch =>
    rw [hdispatch] at hconcludes
    simp only [serviceReceipts, hdispatch]
    exact ⟨last, hlast, hconcludes⟩
  | @served _ middle _ hdispatch hrounds =>
    rw [hdispatch] at hconcludes
    obtain ⟨rfl, hquiet⟩ := hconcludes.quiet
    have hstart : Trail env live.host [] (middle.now env).2.host := hlast
    simp only [serviceReceipts, hdispatch]
    exact serviceRounds_trail env hstart hquiet hrounds

end LiveHost

end ReliableDatagram
