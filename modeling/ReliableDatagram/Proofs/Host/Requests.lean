import ReliableDatagram.Host.Service
import ReliableDatagram.Proofs.Host.Sending

/-!
# What the requests of the application do to the connections of a host

Most requests let the connection they are for go on. Leaving a connection may free its slot,
and then nothing is reported: this is so for a connection whose handshake is not complete, and
for one whose other end has left and waits for the confirmation.
-/

namespace ReliableDatagram

theorem Peer.disconnect_of_isStanding {peer : Peer} (hstanding : peer.state.isStanding = true)
    (hstate : peer.state ≠ .acknowledgingDisconnect) : peer.disconnect.1 = false := by
  unfold disconnect
  split
  · rfl
  · rename_i hleave
    split
    · rfl
    · rename_i hconnected
      rw [canLeave] at hleave
      generalize peer.state = state at hstanding hstate hleave hconnected
      cases state <;> simp_all [PeerState.isStanding]

theorem Peer.disconnect_of_acknowledgingDisconnect {peer : Peer}
    (hstate : peer.state = .acknowledgingDisconnect) : peer.disconnect.1 = true := by
  simp [disconnect, canLeave, hstate]

namespace Host

variable {host after : Host} {id : PeerId} {check : Bool}

/-- Slots may be freed without a report. A report that is new comes with a vacant slot, and
none comes for a slot that was vacant before. -/
structure Clears (host after : Host) : Prop where
  vacant : ∀ id, host.peer? id = none → Moves id host after
  reported : ∀ id, .disconnected id ∈ after.pending →
    .disconnected id ∈ host.pending ∨ after.peer? id = none
  sound : host.table.Sound → after.table.Sound
  connected : ∀ id, .connected id ∈ after.pending → .connected id ∈ host.pending

theorem Passes.clears (h : Passes check host after) : Clears host after where
  vacant id _ := h.moves id
  reported id hmem := (h.moves id).vacant_of_mem hmem
  sound := h.sound
  connected := h.connected

theorem Clears.trans {middle : Host} (h : Clears host middle) (hnext : Clears middle after) :
    Clears host after where
  vacant id hhost :=
    (h.vacant id hhost).trans (hnext.vacant id ((h.vacant id hhost).of_none hhost).1)
  reported id hmem := by
    rcases hnext.reported id hmem with hmiddle | hvacant
    · refine (h.reported id hmiddle).imp_right fun hnone ↦ ?_
      exact ((hnext.vacant id hnone).of_none hnone).1
    · exact .inr hvacant
  sound hsound := hnext.sound (h.sound hsound)
  connected id hmem := h.connected id (hnext.connected id hmem)

theorem clears_release (host : Host) (id : PeerId) : Clears host (host.release id) where
  vacant other hhost := by
    refine .vacant hhost ?_ rfl
    rw [peer?_release, hhost, ite_self]
  reported other hmem := .inl hmem
  sound hsound := hsound.release id
  connected _ hmem := hmem

theorem clears_setPeer {peer : Peer} (hpeer : host.peer? id = some peer) (next : Peer) :
    Clears host (host.setPeer id next) where
  vacant other hhost := by
    have hne : other ≠ id := by
      rintro rfl
      exact absurd (hhost.symm.trans hpeer) (Option.some_ne_none _).symm
    exact .of_eq (peer?_setPeer_of_ne hpeer hne) rfl
  reported other hmem := .inl hmem
  sound hsound := hsound.set hpeer
  connected _ hmem := hmem

/-- Freeing a slot says nothing about the others. -/
theorem moves_release {other : PeerId} (hne : other ≠ id) :
    Moves other host (host.release id) :=
  .of_eq (peer?_release_of_ne host hne) rfl

/-- Slots may be freed without a report, but what is in those that are to be kept moves on. -/
structure Acts (kept : PeerId → Prop) (host after : Host) : Prop where
  clears : Clears host after
  moves : ∀ id, kept id → Moves id host after

section

variable {kept : PeerId → Prop}

theorem Passes.acts (h : Passes check host after) : Acts kept host after where
  clears := h.clears
  moves id _ := h.moves id

theorem Acts.refl (kept : PeerId → Prop) (host : Host) : Acts kept host host :=
  (Passes.refl true host).acts

theorem Acts.trans {middle : Host} (h : Acts kept host middle) (hnext : Acts kept middle after) :
    Acts kept host after where
  clears := h.clears.trans hnext.clears
  moves id hkept := (h.moves id hkept).trans (hnext.moves id hkept)

theorem acts_release (host : Host) (hfreed : ¬ kept id) : Acts kept host (host.release id) where
  clears := clears_release host id
  moves other hkept := by
    apply moves_release
    rintro rfl
    exact hfreed hkept

theorem acts_setPeer {peer next : Peer} (hpeer : host.peer? id = some peer)
    (hnext : kept id → peer.Continues next) : Acts kept host (host.setPeer id next) where
  clears := clears_setPeer hpeer next
  moves other hkept := by
    by_cases heq : other = id
    · exact moves_setPeer hpeer (hnext (heq ▸ hkept)) other
    · exact .of_eq (peer?_setPeer_of_ne hpeer heq) rfl

end

def Stands (host : Host) (id : PeerId) : Prop :=
  ∀ peer, host.peer? id = some peer → peer.state.isStanding = true

theorem stands_of_isStanding {peer : Peer} (hpeer : host.peer? id = some peer)
    (hstanding : peer.state.isStanding = true) : host.Stands id := by
  intro other hother
  cases hpeer.symm.trans hother
  exact hstanding

theorem Moves.stands (h : Moves id host after) (hstands : host.Stands id) : after.Stands id := by
  intro next hnext
  cases h with
  | vacant _ hafter =>
    rw [hafter] at hnext
    cases hnext
  | goesOn hhost hafter hcontinues =>
    cases hafter.symm.trans hnext
    exact hcontinues.isStanding (hstands _ hhost)
  | ends _ hafter =>
    rw [hafter] at hnext
    cases hnext

/-! ## Requests that change one connection or all of them -/

theorem peer_eq_ok {peer : Peer} (h : host.peer id = .ok peer) : host.peer? id = some peer := by
  unfold Host.peer at h
  split at h
  · cases h
  · rename_i hpeer
    cases h
    exact hpeer

theorem send_eq_ok {channel : UInt8} {packet : Packet}
    (h : host.send id channel packet = .ok after) :
    ∃ peer next, host.peer? id = some peer ∧ peer.send channel packet = .ok next ∧
      after = host.setPeer id next := by
  unfold Host.send at h
  cases hpeer : host.peer id with
  | error error =>
    rw [hpeer] at h
    cases h
  | ok peer =>
    rw [hpeer] at h
    cases hsend : peer.send channel packet with
    | error error =>
      simp only [bind, Except.bind, hsend] at h
      cases h
    | ok next =>
      simp only [bind, Except.bind, hsend] at h
      cases h
      exact ⟨peer, next, peer_eq_ok hpeer, hsend, rfl⟩

theorem send_passes {channel : UInt8} {packet : Packet}
    (h : host.send id channel packet = .ok after) : Passes false host after := by
  obtain ⟨peer, next, hpeer, hsend, rfl⟩ := send_eq_ok h
  exact passes_setPeer hpeer (Peer.send_stays hsend)

theorem updatePeer_eq_ok {change : Peer → Peer} (h : host.updatePeer id change = .ok after) :
    ∃ peer, host.peer? id = some peer ∧ after = host.setPeer id (change peer) := by
  unfold updatePeer at h
  cases hpeer : host.peer id with
  | error error =>
    rw [hpeer] at h
    cases h
  | ok peer =>
    rw [hpeer] at h
    cases h
    exact ⟨peer, peer_eq_ok hpeer, rfl⟩

theorem updatePeer_passes {change : Peer → Peer} (h : host.updatePeer id change = .ok after)
    (hchange : ∀ peer : Peer, peer.Stays (change peer)) : Passes false host after := by
  obtain ⟨peer, hpeer, rfl⟩ := updatePeer_eq_ok h
  exact passes_setPeer hpeer (hchange peer)

theorem updatePeer_acts {kept : PeerId → Prop} {change : Peer → Peer}
    (h : host.updatePeer id change = .ok after)
    (hchange : kept id → ∀ peer, Peer.Continues peer (change peer)) : Acts kept host after := by
  obtain ⟨peer, hpeer, rfl⟩ := updatePeer_eq_ok h
  exact acts_setPeer hpeer fun hkept ↦ hchange hkept peer

theorem submit_passes {request : Request} (h : host.submit request = .ok after) :
    Passes false host after := by
  unfold submit at h
  cases hpush : host.mailbox.push request with
  | error error =>
    rw [hpush] at h
    cases h
  | ok mailbox =>
    rw [hpush] at h
    cases h
    exact .of_eq (fun _ ↦ rfl) (fun hsound ↦ hsound) rfl

theorem broadcast_slotwise (host : Host) (channel : UInt8) (packet : Packet) :
    SlotTable.Slotwise Peer.LocalRun host.table.slots.toList
      (Allocator.sweep (broadcastTo channel packet) 0 host.table.slots.toList).2 := by
  apply Allocator.sweep_slotwise
  intro count peer
  unfold broadcastTo
  split
  · split
    · rename_i hsend
      exact .single (.send hsend)
    · exact .refl
  · exact .refl

theorem broadcast_passes (host : Host) (channel : UInt8) (packet : Packet) :
    Passes false host (host.broadcast channel packet).2 :=
  passes_evolves (host.broadcast_slotwise channel packet).evolves rfl rfl

theorem limitBandwidth_passes (host : Host) (incoming outgoing : UInt32) :
    Passes false host (host.limitBandwidth incoming outgoing) :=
  .of_eq (fun _ ↦ rfl) (fun hsound ↦ hsound) rfl

/-- Forgetting a connection frees its slot. -/
theorem resetPeer_eq_ok (h : host.resetPeer id = .ok after) : after = host.release id := by
  unfold resetPeer at h
  cases hpeer : host.peer id with
  | error error =>
    rw [hpeer] at h
    cases h
  | ok peer =>
    rw [hpeer] at h
    cases h
    rfl

end Host

namespace LiveHost

open Host

variable {σ : Type} (env : Environment σ) {live after : LiveHost σ} {id : PeerId}

/-! ## Leaving -/

inductive DisconnectEnds (live : LiveHost σ) (id : PeerId) : LiveHost σ → Prop where
  /-- The other end is to be told. -/
  | leaves {peer next : Peer} (hpeer : live.host.peer? id = some peer)
      (hleft : peer.disconnect = (false, next)) :
      DisconnectEnds live id (live.mapHost (·.setPeer id next))
  /-- The other end is told, and the slot is freed. -/
  | freed {peer next : Peer} (hpeer : live.host.peer? id = some peer)
      (hleft : peer.disconnect = (true, next)) :
      DisconnectEnds live id
        (((live.mapHost (·.setPeer id next)).sendOutgoing env false).mapHost (·.release id))

theorem disconnectEnds_of_disconnect (h : live.disconnect env id = .ok after) :
    live.DisconnectEnds env id after := by
  unfold disconnect at h
  cases hpeer : live.host.peer id with
  | error error =>
    rw [hpeer] at h
    cases h
  | ok peer =>
    rw [hpeer] at h
    dsimp only [bind, Except.bind] at h
    cases hleft : peer.disconnect with
    | mk isFreed next =>
      rw [hleft] at h
      cases isFreed with
      | false =>
        cases h
        exact .leaves (peer_eq_ok hpeer) hleft
      | true =>
        cases h
        exact .freed (peer_eq_ok hpeer) hleft

/-- Leaving a connection frees its slot at once or lets it go on. -/
theorem disconnect_eq_ok (h : live.disconnect env id = .ok after) :
    ∃ peer, live.host.peer? id = some peer ∧
      (peer.disconnect.1 = false ∧ Passes false live.host after.host ∨
        peer.disconnect.1 = true ∧ ∃ sent : LiveHost σ, Passes false live.host sent.host ∧
          after = sent.mapHost (·.release id)) := by
  have hleaves {peer next : Peer} {isFreed : Bool} (hpeer : live.host.peer? id = some peer)
      (hleft : peer.disconnect = (isFreed, next)) :
      Passes false live.host (live.host.setPeer id next) := by
    have hstays := peer.disconnect_stays
    rw [hleft] at hstays
    exact passes_setPeer hpeer hstays
  cases disconnectEnds_of_disconnect env h with
  | @leaves peer _ hpeer hleft => exact ⟨peer, hpeer, .inl ⟨by rw [hleft], hleaves hpeer hleft⟩⟩
  | @freed peer next hpeer hleft =>
    have hsent := sendOutgoing_passes env false (live.mapHost (·.setPeer id next))
    exact ⟨peer, hpeer, .inr ⟨by rw [hleft], _, (hleaves hpeer hleft).trans hsent, rfl⟩⟩

theorem exists_disconnect {peer : Peer} (hpeer : live.host.peer? id = some peer) :
    ∃ after, live.disconnect env id = .ok after := by
  unfold disconnect Host.peer
  rw [hpeer]
  dsimp only [bind, Except.bind]
  split <;> exact ⟨_, rfl⟩

/-- Leaving a connection frees at most its slot, and not even that if it is not to be freed at
once. -/
theorem disconnect_acts {kept : PeerId → Prop} (h : live.disconnect env id = .ok after)
    (hkept : kept id → ∀ peer, live.host.peer? id = some peer → peer.disconnect.1 = false) :
    Acts kept live.host after.host := by
  obtain ⟨peer, hpeer, ⟨-, hpasses⟩ | ⟨hfreed, sent, hpasses, rfl⟩⟩ := disconnect_eq_ok env h
  · exact hpasses.acts
  · apply hpasses.acts.trans
    apply acts_release
    intro hid
    rw [hkept hid peer hpeer] at hfreed
    cases hfreed

/-- A connection that is freed at once leaves without a report. -/
theorem disconnect_silent {peer : Peer} (h : live.disconnect env id = .ok after)
    (hpeer : live.host.peer? id = some peer) (hfreed : peer.disconnect.1 = true) :
    after.host.peer? id = none ∧ after.host.departures id = live.host.departures id := by
  obtain ⟨other, hother, ⟨hkept, -⟩ | ⟨-, sent, hpasses, rfl⟩⟩ := disconnect_eq_ok env h
  · cases hother.symm.trans hpeer
    rw [hfreed] at hkept
    cases hkept
  · exact ⟨peer?_release_self sent.host id, hpasses.quiet rfl id⟩

inductive DisconnectNowEnds (live : LiveHost σ) (id : PeerId) : LiveHost σ → Prop where
  /-- There is nobody to be told. -/
  | silent {peer next : Peer} (hpeer : live.host.peer? id = some peer)
      (hleft : peer.disconnectNow = (false, next)) :
      DisconnectNowEnds live id ((live.mapHost (·.setPeer id next)).mapHost (·.release id))
  /-- The other end is told. -/
  | told {peer next : Peer} (hpeer : live.host.peer? id = some peer)
      (hleft : peer.disconnectNow = (true, next)) :
      DisconnectNowEnds live id
        (((live.mapHost (·.setPeer id next)).sendOutgoing env false).mapHost (·.release id))

theorem disconnectNowEnds_of_disconnectNow (h : live.disconnectNow env id = .ok after) :
    live.DisconnectNowEnds env id after := by
  unfold disconnectNow at h
  cases hpeer : live.host.peer id with
  | error error =>
    rw [hpeer] at h
    cases h
  | ok peer =>
    rw [hpeer] at h
    dsimp only [bind, Except.bind] at h
    cases hleft : peer.disconnectNow with
    | mk isTold next =>
      rw [hleft] at h
      cases isTold with
      | false =>
        cases h
        exact .silent (peer_eq_ok hpeer) hleft
      | true =>
        cases h
        exact .told (peer_eq_ok hpeer) hleft

/-- Leaving at once frees the slot, after what there was to be sent. -/
theorem disconnectNow_eq_ok (h : live.disconnectNow env id = .ok after) :
    ∃ sent : LiveHost σ, Passes false live.host sent.host ∧
      after = sent.mapHost (·.release id) := by
  have hleaves {peer next : Peer} {isTold : Bool} (hpeer : live.host.peer? id = some peer)
      (hleft : peer.disconnectNow = (isTold, next)) :
      Passes false live.host (live.mapHost (·.setPeer id next)).host := by
    have hstays := peer.disconnectNow_stays
    rw [hleft] at hstays
    exact passes_setPeer hpeer hstays
  cases disconnectNowEnds_of_disconnectNow env h with
  | silent hpeer hleft => exact ⟨_, hleaves hpeer hleft, rfl⟩
  | told hpeer hleft =>
    exact ⟨_, (hleaves hpeer hleft).trans (sendOutgoing_passes env false _), rfl⟩

/-- Leaving at once lets all other connections go on. -/
theorem disconnectNow_acts {kept : PeerId → Prop} (h : live.disconnectNow env id = .ok after)
    (hfreed : ¬ kept id) : Acts kept live.host after.host := by
  obtain ⟨sent, hpasses, rfl⟩ := disconnectNow_eq_ok env h
  exact hpasses.acts.trans (acts_release _ hfreed)

/-! ## The mailbox -/

/-- A request lets the connections go on, except for one that it is to leave, and that is freed
at once. -/
theorem applyRequest_acts (live : LiveHost σ) (request : Request) :
    Acts (fun id ↦ request = .disconnect id → ∀ peer, live.host.peer? id = some peer →
      peer.disconnect.1 = false) live.host (live.applyRequest env request).host := by
  cases request with
  | send peer channel packet =>
    unfold applyRequest
    dsimp only
    split
    · rename_i hsend
      exact (send_passes hsend).acts
    · exact .refl _ live.host
  | broadcast channel packet => exact (live.host.broadcast_passes channel packet).acts
  | disconnect peer =>
    unfold applyRequest
    dsimp only
    split
    · rename_i hdisconnect
      exact disconnect_acts env hdisconnect fun hkept ↦ hkept rfl
    · exact .refl _ live.host

/-- A request to leave a connection whose other end has left frees its slot without a report. -/
theorem applyRequest_silent {peer : Peer} (hpeer : live.host.peer? id = some peer)
    (hstate : peer.state = .acknowledgingDisconnect) :
    (live.applyRequest env (.disconnect id)).host.peer? id = none ∧
      (live.applyRequest env (.disconnect id)).host.departures id = live.host.departures id := by
  obtain ⟨after, hafter⟩ := exists_disconnect env hpeer
  have happly : live.applyRequest env (.disconnect id) = after := by
    rw [applyRequest, hafter]
  rw [happly]
  exact disconnect_silent env hafter hpeer (Peer.disconnect_of_acknowledgingDisconnect hstate)

abbrev applyAll (live : LiveHost σ) (requests : List Request) : LiveHost σ :=
  requests.foldl (applyRequest env) live

theorem applyAll_clears (live : LiveHost σ) (requests : List Request) :
    Clears live.host (live.applyAll env requests).host := by
  induction requests generalizing live with
  | nil => exact (Acts.refl (fun _ ↦ False) live.host).clears
  | cons request rest ih => exact (live.applyRequest_acts env request).clears.trans (ih _)

/-- One of the requests is to leave a connection when its other end has left and waits for the
confirmation. -/
def Drops (id : PeerId) (requests : List Request) (live : LiveHost σ) : Prop :=
  ∃ earlier later peer, requests = earlier ++ .disconnect id :: later ∧
    (live.applyAll env earlier).host.peer? id = some peer ∧
    peer.state = .acknowledgingDisconnect

theorem Drops.cons {request : Request} {rest : List Request}
    (h : Drops env id rest (live.applyRequest env request)) :
    Drops env id (request :: rest) live := by
  obtain ⟨earlier, later, peer, rfl, hpeer, hstate⟩ := h
  exact ⟨request :: earlier, later, peer, rfl, hpeer, hstate⟩

/-- Without such a request a connection that stands moves on. -/
theorem applyAll_moves (live : LiveHost σ) (requests : List Request)
    (hstanding : live.host.Stands id) (hkept : ¬ Drops env id requests live) :
    Moves id live.host (live.applyAll env requests).host := by
  induction requests generalizing live with
  | nil => exact .of_eq rfl rfl
  | cons request rest ih =>
    have hmove : Moves id live.host (live.applyRequest env request).host := by
      apply (live.applyRequest_acts env request).moves
      rintro rfl peer hpeer
      apply Peer.disconnect_of_isStanding (hstanding peer hpeer)
      intro hstate
      exact hkept ⟨[], rest, peer, rfl, hpeer, hstate⟩
    apply hmove.trans
    exact ih _ (hmove.stands hstanding) fun hdrops ↦ hkept (hdrops.cons env)

/-- Such a request frees the slot without a report. -/
theorem applyAll_silent (live : LiveHost σ) (requests : List Request) {peer : Peer}
    (hpeer : live.host.peer? id = some peer) (hstanding : peer.state.isStanding = true)
    (hdrops : Drops env id requests live) :
    (live.applyAll env requests).host.peer? id = none ∧
      (live.applyAll env requests).host.departures id = live.host.departures id := by
  induction requests generalizing live peer with
  | nil =>
    obtain ⟨earlier, later, -, heq, -⟩ := hdrops
    simp at heq
  | cons request rest ih =>
    have hlater := applyAll_clears env (live.applyRequest env request) rest
    by_cases hfirst : request = .disconnect id ∧ peer.state = .acknowledgingDisconnect
    · -- The first request frees the slot, and it stays vacant.
      obtain ⟨rfl, hstate⟩ := hfirst
      obtain ⟨hnone, hcount⟩ := applyRequest_silent env hpeer hstate
      obtain ⟨hvacant, hsame⟩ := (hlater.vacant id hnone).of_none hnone
      exact ⟨hvacant, hsame.trans hcount⟩
    · have hmove : Moves id live.host (live.applyRequest env request).host := by
        apply (live.applyRequest_acts env request).moves
        intro hrequest other hother
        cases hpeer.symm.trans hother
        exact Peer.disconnect_of_isStanding hstanding fun hstate ↦ hfirst ⟨hrequest, hstate⟩
      obtain ⟨earlier, later, last, heq, hlast, hstate⟩ := hdrops
      cases earlier with
      | nil =>
        cases hpeer.symm.trans hlast
        exact absurd ⟨(List.cons.inj heq).1, hstate⟩ hfirst
      | cons first earlier =>
        obtain ⟨rfl, rfl⟩ := List.cons.inj heq
        rcases hmove.of_some hpeer with ⟨next, hnext, hcontinues, hcount⟩ | ⟨-, hvacant, -⟩
        · obtain ⟨hnone, hsame⟩ := ih _ hnext (hcontinues.isStanding hstanding)
            ⟨earlier, later, last, rfl, hlast, hstate⟩
          exact ⟨hnone, hsame.trans hcount⟩
        · have hnone :=
            (((applyAll_clears env _ earlier).vacant id hvacant).of_none hvacant).1
          exact absurd (hnone.symm.trans hlast) (Option.some_ne_none _).symm

end LiveHost

end ReliableDatagram
