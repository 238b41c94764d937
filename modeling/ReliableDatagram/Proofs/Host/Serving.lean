import ReliableDatagram.Host.Service
import ReliableDatagram.Proofs.Host.Receiving

/-!
# What serving does to the connections of a host

A connection that stands goes on while the host serves, or it ends with one report, which is
the event that is returned or one that is left for later. When the events of one round of
sending are all that there is to report, the slots they name are vacant. A connection that is
reported to stand does so in its slot.
-/

namespace ReliableDatagram

namespace Host

variable {host after : Host} {id : PeerId} {event : Option Event}

/-- How often the end of a connection in a slot was returned or waits to be reported. -/
def reports (host : Host) (id : PeerId) (event : Option Event) : Nat :=
  host.departures id + if event = some (.disconnected id) then 1 else 0

/-- What becomes of a connection that stands, until an event is returned or there is none. -/
inductive Serves (id : PeerId) (host : Host) (event : Option Event) (after : Host) : Prop where
  | goesOn {peer next : Peer} (hhost : host.peer? id = some peer)
      (hafter : after.peer? id = some next) (hnext : peer.Continues next)
      (hcount : after.reports id event = host.departures id) : Serves id host event after
  /-- The connection ends, its slot is freed, and the end is reported. -/
  | ends {peer last : Peer} (hhost : host.peer? id = some peer) (hafter : after.peer? id = none)
      (hlast : peer.Continues last)
      (hcount : after.reports id event = host.departures id + 1) : Serves id host event after

theorem reports_of_ne (h : event ≠ some (.disconnected id)) :
    host.reports id event = host.departures id := by
  rw [reports, if_neg h]
  rfl

/-- Whatever has become of a connection that stands, an event that only takes the place of its
report among those that wait changes nothing. -/
theorem Moves.serves {middle : Host} {peer : Peer} (h : Moves id host middle)
    (hpeer : host.peer? id = some peer) (hstanding : peer.state.isStanding = true)
    (hslot : after.peer? id = middle.peer? id)
    (hcount : after.reports id event = middle.departures id) : Serves id host event after := by
  rcases h.of_isStanding hpeer hstanding with ⟨next, hmiddle, hnext, -, hsame⟩ |
    ⟨last, hmiddle, hlast, hmore⟩
  · exact .goesOn hpeer (hslot.trans hmiddle) hnext (hcount.trans hsame)
  · exact .ends hpeer (hslot.trans hmiddle) hlast (hcount.trans hmore)

theorem Serves.of_goesOn {middle : Host} {peer next : Peer} (h : Serves id middle event after)
    (hpeer : host.peer? id = some peer) (hmiddle : middle.peer? id = some next)
    (hnext : peer.Continues next) (hcount : middle.departures id = host.departures id) :
    Serves id host event after := by
  cases h with
  | goesOn hother hafter hmore hreports =>
    cases hmiddle.symm.trans hother
    exact .goesOn hpeer hafter (hnext.trans hmore) (hreports.trans hcount)
  | ends hother hafter hmore hreports =>
    cases hmiddle.symm.trans hother
    rw [hcount] at hreports
    exact .ends hpeer hafter (hnext.trans hmore) hreports

/-! ## The event that is returned -/

theorem popEvent_eq_some {event : Event} (h : host.popEvent = (some event, after)) :
    host.pending = event :: after.pending ∧ after.table = host.table := by
  unfold popEvent at h
  split at h
  · cases h
  · rename_i hpending
    cases h
    exact ⟨hpending, rfl⟩

theorem popEvent_eq_none (h : host.popEvent = (none, after)) :
    host.pending = [] ∧ after = host := by
  unfold popEvent at h
  split at h
  · rename_i hpending
    cases h
    exact ⟨hpending, rfl⟩
  · cases h

theorem peer?_of_popEvent {event : Event} (h : host.popEvent = (some event, after))
    (id : PeerId) : after.peer? id = host.peer? id := by
  rw [peer?, (popEvent_eq_some h).2]
  rfl

/-- Returning an event leaves as many reports as there were. -/
theorem reports_popEvent {event : Event} (h : host.popEvent = (some event, after))
    (id : PeerId) : after.reports id (some event) = host.departures id := by
  obtain ⟨hpending, -⟩ := popEvent_eq_some h
  rw [reports, departures, departures, hpending, List.count_cons]
  simp

structure Dispatches (host : Host) (event : Option Event) (after : Host) : Prop where
  serves : ∀ id peer, host.peer? id = some peer → peer.state.isStanding = true →
    Serves id host event after
  remains : Remains host after
  sound : host.table.Sound → after.table.Sound
  vacant : ∀ id, event = some (.disconnected id) → after.peer? id = none
  silent : ∀ id, event ≠ some (.connected id)
  pending : after.pending = host.pending

theorem Dispatches.refl (host : Host) : Dispatches host none host where
  serves id peer hpeer hstanding := .goesOn hpeer hpeer .refl rfl
  remains := .of_eq fun _ ↦ rfl
  sound hsound := hsound
  vacant id h := by cases h
  silent id h := by cases h
  pending := rfl

/-- An event that ends no connection and begins none leaves the slots to the connections. -/
theorem Dispatches.of_passes {middle : Host} {check : Bool} (h : Passes check host middle)
    (hpending : middle.pending = host.pending) (hslots : ∀ id, after.peer? id = middle.peer? id)
    (htable : middle.table.Sound → after.table.Sound) (hafter : after.pending = middle.pending)
    (hdisconnected : ∀ id, event ≠ some (.disconnected id))
    (hconnected : ∀ id, event ≠ some (.connected id)) : Dispatches host event after where
  serves id peer hpeer hstanding := by
    refine (h.moves id).serves hpeer hstanding (hslots id) ?_
    rw [reports_of_ne (hdisconnected id), departures, departures, hafter]
  remains := h.remains.trans (.of_eq hslots)
  sound hsound := htable (h.sound hsound)
  vacant id hevent := absurd hevent (hdisconnected id)
  silent := hconnected
  pending := hafter.trans hpending

/-- A connection goes on in its slot before the search does. -/
theorem Dispatches.setPeer {peer next : Peer}
    (h : Dispatches (host.setPeer id next) event after) (hpeer : host.peer? id = some peer)
    (hnext : peer.Stays next) : Dispatches host event after where
  serves other first hfirst hstanding := by
    by_cases heq : other = id
    · subst heq
      cases hpeer.symm.trans hfirst
      have hslot : (host.setPeer other next).peer? other = some next :=
        peer?_setPeer_self hpeer
      exact (h.serves other next hslot (hnext.continues.isStanding hstanding)).of_goesOn hfirst
        hslot hnext.continues rfl
    · have hslot : (host.setPeer id next).peer? other = some first := by
        rw [peer?_setPeer_of_ne hpeer heq]
        exact hfirst
      exact (h.serves other first hslot hstanding).of_goesOn hfirst hslot .refl rfl
  remains := (remains_setPeer hpeer hnext).trans h.remains
  sound hsound := h.sound (hsound.set hpeer)
  vacant := h.vacant
  silent := h.silent
  pending := h.pending

/-- A zombie is freed, and its end is returned. -/
theorem dispatches_zombie {peer : Peer} (hpeer : host.peer? id = some peer)
    (htable : after.table = (host.release id).table) (hpending : after.pending = host.pending) :
    Dispatches host (some (.disconnected id)) after where
  serves other first hfirst hstanding := by
    have hslot : after.peer? other = if other = id then none else host.peer? other := by
      rw [← peer?_release, peer?, htable]
      rfl
    have hcount : after.reports other (some (.disconnected id)) =
        host.departures other + if id = other then 1 else 0 := by
      rw [reports, departures, departures, hpending]
      simp
    by_cases heq : other = id
    · subst heq
      rw [if_pos rfl] at hslot hcount
      exact .ends hfirst hslot .refl hcount
    · rw [if_neg heq] at hslot
      rw [if_neg (Ne.symm heq)] at hcount
      exact .goesOn hfirst (hslot.trans hfirst) .refl hcount
  remains := by
    refine (remains_release host id).trans (.of_eq fun other ↦ ?_)
    rw [peer?, htable]
    rfl
  sound hsound := by
    rw [htable]
    exact hsound.release id
  vacant other hevent := by
    cases hevent
    rw [peer?, htable]
    exact SlotTable.get?_release_self ..
  silent other hevent := by cases hevent
  pending := hpending

inductive SearchEnds : List Nat → Host → Option Event × Host → Prop where
  | nothing {host : Host} : SearchEnds [] host (none, host)
  | buried {index : Nat} {rest : List Nat} {host : Host} {peer : Peer}
      (hpeer : host.peer? (UInt16.ofNat index) = some peer) (hstate : peer.state = .zombie) :
      SearchEnds (index :: rest) host (some (.disconnected (UInt16.ofNat index)),
        { (host.release (UInt16.ofNat index)).requestRecalculation with cursor := index + 1 })
  | delivered {index : Nat} {rest : List Nat} {host : Host} {peer next : Peer} {channel : UInt8}
      {packet : Packet} (hpeer : host.peer? (UInt16.ofNat index) = some peer)
      (hstate : peer.state = .connected)
      (hreceive : peer.receiveAny = (some (channel, packet), next)) :
      SearchEnds (index :: rest) host (some (.received (UInt16.ofNat index) channel packet),
        { host.setPeer (UInt16.ofNat index) next with cursor := index + 1 })
  /-- It has none to deliver, and the next slot is looked at. -/
  | drained {index : Nat} {rest : List Nat} {host : Host} {peer next : Peer}
      {result : Option Event × Host} (hpeer : host.peer? (UInt16.ofNat index) = some peer)
      (hstate : peer.state = .connected) (hreceive : peer.receiveAny = (none, next))
      (hrest : SearchEnds rest (host.setPeer (UInt16.ofNat index) next) result) :
      SearchEnds (index :: rest) host result
  /-- There is no connection that is over or delivers packets, and the next slot is looked at. -/
  | passed {index : Nat} {rest : List Nat} {host : Host} {result : Option Event × Host}
      (hidle : ∀ peer, host.peer? (UInt16.ofNat index) = some peer →
        peer.state ≠ .zombie ∧ peer.state ≠ .connected)
      (hrest : SearchEnds rest host result) : SearchEnds (index :: rest) host result

theorem dispatchFrom_ends (indices : List Nat) (host : Host) :
    SearchEnds indices host (host.dispatchFrom indices) := by
  induction indices generalizing host with
  | nil => exact .nothing
  | cons index rest ih =>
    unfold dispatchFrom
    dsimp only
    split
    · rename_i hnone
      exact .passed (fun peer hpeer ↦ absurd (hnone.symm.trans hpeer) nofun) (ih host)
    · rename_i peer hpeer
      split
      · rename_i hstate
        exact .buried hpeer hstate
      · rename_i hstate
        split
        · rename_i hreceive
          exact .delivered hpeer hstate hreceive
        · rename_i hreceive
          exact .drained hpeer hstate hreceive (ih _)
      · rename_i hzombie hconnected
        refine .passed (fun other hother ↦ ?_) (ih host)
        cases hpeer.symm.trans hother
        exact ⟨hzombie, hconnected⟩

theorem dispatchFrom_dispatches (indices : List Nat) (host : Host) :
    Dispatches host (host.dispatchFrom indices).1 (host.dispatchFrom indices).2 := by
  have hends := dispatchFrom_ends indices host
  generalize host.dispatchFrom indices = result at hends ⊢
  induction hends with
  | nothing => exact .refl _
  | buried hpeer => exact dispatches_zombie hpeer rfl rfl
  | @delivered index _ host peer next _ _ hpeer _ hreceive =>
    have hstays := peer.receiveAny_stays
    rw [hreceive] at hstays
    have hnext : Passes true host (host.setPeer (UInt16.ofNat index) next) :=
      passes_setPeer hpeer hstays
    exact .of_passes hnext rfl (fun _ ↦ rfl) (fun hsound ↦ hsound) rfl
      (fun _ hevent ↦ by cases hevent) (fun _ hevent ↦ by cases hevent)
  | @drained _ _ _ peer _ _ hpeer _ hreceive _ ih =>
    have hstays := peer.receiveAny_stays
    rw [hreceive] at hstays
    exact ih.setPeer hpeer hstays
  | passed _ _ ih => exact ih

/-- The next event is the oldest one that waits, or else it is looked for in the slots. -/
theorem dispatch_eq (host : Host) :
    (∃ event after, host.popEvent = (some event, after) ∧ host.dispatch = (some event, after)) ∨
      host.pending = [] ∧ Dispatches host host.dispatch.1 host.dispatch.2 := by
  unfold dispatch
  cases hpop : host.popEvent with
  | mk found next =>
    cases found with
    | some event => exact .inl ⟨event, next, rfl, rfl⟩
    | none =>
      obtain ⟨hpending, rfl⟩ := popEvent_eq_none hpop
      exact .inr ⟨hpending, dispatchFrom_dispatches _ _⟩

/-! ## Rounds -/

/-- What serving does when nothing waits to be reported. -/
structure Served (host : Host) (event : Option Event) (after : Host) : Prop where
  serves : ∀ id peer, host.peer? id = some peer → peer.state.isStanding = true →
    Serves id host event after
  sound : after.table.Sound
  vacant : ∀ id, event = some (.disconnected id) ∨ .disconnected id ∈ after.pending →
    after.peer? id = none
  stands : ∀ id, event = some (.connected id) → ∃ peer, after.peer? id = some peer ∧
    peer.state.isStanding = true
  silent : ∀ id, .connected id ∉ after.pending
  waits : event = none → after.pending = []

/-- Nothing is to be reported, and every connection that stood goes on. -/
structure Rests (host after : Host) : Prop where
  goesOn : ∀ id peer, host.peer? id = some peer → peer.state.isStanding = true →
    ∃ next, after.peer? id = some next ∧ peer.Continues next ∧ next.state.isStanding = true
  sound : after.table.Sound
  pending : after.pending = []

theorem Rests.served {middle : Host} (h : Rests host middle) (hpending : host.pending = [])
    (hnext : Served middle event after) : Served host event after where
  serves id peer hpeer hstanding := by
    obtain ⟨next, hmiddle, hcontinues, hnextstanding⟩ := h.goesOn id peer hpeer hstanding
    refine (hnext.serves id next hmiddle hnextstanding).of_goesOn hpeer hmiddle hcontinues ?_
    rw [departures, departures, h.pending, hpending]
  sound := hnext.sound
  vacant := hnext.vacant
  stands := hnext.stands
  silent := hnext.silent
  waits := hnext.waits

/-- What has passed without a report leaves all connections that stood. -/
theorem Passes.rests {check : Bool} (h : Passes check host after) (hsound : host.table.Sound)
    (hpending : after.pending = []) : Rests host after where
  goesOn id _ hpeer hstanding := by
    obtain ⟨next, hnext, hcontinues, hnextstanding, -⟩ :=
      (h.moves id).goesOn_of_pending hpeer hstanding hpending
    exact ⟨next, hnext, hcontinues, hnextstanding⟩
  sound := h.sound hsound
  pending := hpending

/-- The oldest report of a round of sending is returned. -/
theorem Passes.served {check : Bool} {middle : Host} {event : Event}
    (h : Passes check host middle) (hsound : host.table.Sound) (hpending : host.pending = [])
    (hpop : middle.popEvent = (some event, after)) : Served host (some event) after := by
  obtain ⟨hmiddle, htable⟩ := popEvent_eq_some hpop
  have hslot := peer?_of_popEvent hpop
  have hsilent (id : PeerId) : .connected id ∉ middle.pending := by
    intro hmem
    have hold := h.connected id hmem
    rw [hpending] at hold
    cases hold
  refine ⟨fun id peer hpeer hstanding ↦ (h.moves id).serves hpeer hstanding (hslot id)
    (reports_popEvent hpop id), htable ▸ h.sound hsound, ?_, ?_, ?_, ?_⟩
  · intro id hreported
    have hmem : .disconnected id ∈ middle.pending := by
      rw [hmiddle]
      rcases hreported with hevent | hmem
      · cases hevent
        exact List.mem_cons_self
      · exact List.mem_cons_of_mem _ hmem
    rw [hslot]
    refine ((h.moves id).vacant_of_mem hmem).resolve_left ?_
    rw [hpending]
    exact List.not_mem_nil
  · intro id hevent
    cases hevent
    exact absurd (hmiddle ▸ List.mem_cons_self) (hsilent id)
  · intro id hmem
    exact hsilent id (hmiddle ▸ List.mem_cons_of_mem _ hmem)
  · intro hevent
    cases hevent

/-- What was received without an event leaves all connections that stood. -/
theorem Receives.rests (h : Receives host after) (hpending : after.pending = []) :
    Rests host after where
  goesOn id peer hpeer hstanding := by
    obtain ⟨next, hnext, hcontinues, hnextstanding, -⟩ :=
      (h.moves id peer hpeer hstanding).goesOn_of_pending hpeer hstanding hpending
    exact ⟨next, hnext, hcontinues, hnextstanding⟩
  sound := h.sound
  pending := hpending

/-- The one event that receiving has brought is returned. -/
theorem Receives.served {middle : Host} {event : Event} (h : Receives host middle)
    (hpop : middle.popEvent = (some event, after)) : Served host (some event) after := by
  obtain ⟨hmiddle, htable⟩ := popEvent_eq_some hpop
  have hslot := peer?_of_popEvent hpop
  have hone : after.pending = [] ∧
      (∀ id, event = .disconnected id → middle.peer? id = none) ∧
      ∀ id, event = .connected id → ∃ peer, middle.peer? id = some peer ∧
        peer.state.isStanding = true := by
    cases h.announces with
    | nothing hpending =>
      rw [hpending] at hmiddle
      cases hmiddle
    | failed hpending =>
      obtain ⟨rfl, hrest⟩ := List.cons.inj (hpending.symm.trans hmiddle)
      exact ⟨hrest.symm, fun _ h ↦ (by cases h), fun _ h ↦ by cases h⟩
    | departed hpending hvacant =>
      obtain ⟨rfl, hrest⟩ := List.cons.inj (hpending.symm.trans hmiddle)
      refine ⟨hrest.symm, fun _ h ↦ ?_, fun _ h ↦ by cases h⟩
      cases h
      exact hvacant
    | connected hpending hpeer hstanding =>
      obtain ⟨rfl, hrest⟩ := List.cons.inj (hpending.symm.trans hmiddle)
      refine ⟨hrest.symm, fun _ h ↦ (by cases h), fun _ h ↦ ?_⟩
      cases h
      exact ⟨_, hpeer, hstanding⟩
  obtain ⟨hempty, hvacant, hstands⟩ := hone
  refine ⟨fun id peer hpeer hstanding ↦ (h.moves id peer hpeer hstanding).serves hpeer hstanding
    (hslot id) (reports_popEvent hpop id), htable ▸ h.sound, ?_, ?_, ?_, ?_⟩
  · rintro id (hevent | hmem)
    · rw [hslot]
      exact hvacant id (Option.some.inj hevent)
    · rw [hempty] at hmem
      cases hmem
  · intro id hevent
    rw [hslot]
    exact hstands id (Option.some.inj hevent)
  · intro id hmem
    rw [hempty] at hmem
    cases hmem
  · intro hevent
    cases hevent

theorem Dispatches.served (h : Dispatches host event after) (hsound : host.table.Sound)
    (hpending : host.pending = []) : Served host event after where
  serves := h.serves
  sound := h.sound hsound
  vacant id hreported := by
    refine h.vacant id (hreported.resolve_right ?_)
    rw [h.pending, hpending]
    exact List.not_mem_nil
  stands id hevent := absurd hevent (h.silent id)
  silent id := by
    rw [h.pending, hpending]
    exact List.not_mem_nil
  waits _ := h.pending.trans hpending

theorem Served.rests (h : Served host none after) (hpending : host.pending = []) :
    Rests host after where
  goesOn id peer hpeer hstanding := by
    cases h.serves id peer hpeer hstanding with
    | goesOn hhost hafter hnext =>
      cases hhost.symm.trans hpeer
      exact ⟨_, hafter, hnext, hnext.isStanding hstanding⟩
    | ends hhost hafter hlast hcount =>
      rw [reports, departures, departures, h.waits rfl, hpending] at hcount
      simp at hcount
  sound := h.sound
  pending := h.waits rfl

/-- Nothing has happened. -/
theorem served_of_eq (hsound : host.table.Sound) (hpending : host.pending = [])
    (hdisconnected : ∀ id, event ≠ some (.disconnected id))
    (hconnected : ∀ id, event ≠ some (.connected id)) : Served host event host :=
  Dispatches.served (.of_passes (Passes.refl true host) rfl (fun _ ↦ rfl) (fun hsound ↦ hsound) rfl
    hdisconnected hconnected) hsound hpending

end Host

namespace LiveHost

open Host

variable {σ : Type} (env : Environment σ) {live after : LiveHost σ} {event : Option Event}

theorem await_served (live : LiveHost σ) (deadline : Stamp) (hsound : live.host.table.Sound)
    (hpending : live.host.pending = []) :
    Served live.host (live.await env deadline).1 (live.await env deadline).2.host := by
  unfold await
  dsimp only
  split
  · exact served_of_eq hsound hpending (fun _ h ↦ by cases h) fun _ h ↦ by cases h
  · split <;>
      exact served_of_eq hsound hpending (fun _ h ↦ by cases h) fun _ h ↦ by cases h

theorem popEvent_eq_some {event : Event} (h : live.popEvent = (some event, after)) :
    live.host.popEvent = (some event, after.host) := by
  unfold popEvent at h
  generalize live.host.popEvent = popped at h ⊢
  obtain ⟨found, host⟩ := popped
  cases h
  rfl

theorem popEvent_eq_none (h : live.popEvent = (none, after)) :
    live.host.pending = [] ∧ after = live := by
  unfold popEvent at h
  generalize hpop : live.host.popEvent = popped at h
  obtain ⟨found, host⟩ := popped
  cases h
  obtain ⟨hpending, rfl⟩ := Host.popEvent_eq_none hpop
  exact ⟨hpending, rfl⟩

theorem dispatch_host (h : live.dispatch = (event, after)) :
    live.host.dispatch = (event, after.host) :=
  congrArg (fun found ↦ (found.1, found.2.host)) h

theorem dispatch_served {start : Host} {check : Bool}
    (hpasses : Passes check start live.host) (hsound : start.table.Sound)
    (hpending : start.pending = []) : Served start live.dispatch.1 live.dispatch.2.host := by
  change Served start live.host.dispatch.1 live.host.dispatch.2
  rcases live.host.dispatch_eq with ⟨found, next, hpop, hdispatch⟩ | ⟨hempty, hdispatches⟩
  · rw [hdispatch]
    exact hpasses.served hsound hpending hpop
  · have hrests := hpasses.rests hsound hempty
    exact hrests.served hpending (hdispatches.served hrests.sound hempty)

/-- The host when it has shared out the bandwidth and sent what waited. -/
def opening (live : LiveHost σ) : LiveHost σ :=
  ((live.now env).2.mapHost (·.allocateBandwidth (live.now env).1)).sendOutgoing env true

theorem opening_passes (live : LiveHost σ) :
    Passes true live.host (live.opening env).host := by
  have hshared : Passes true live.host (live.host.allocateBandwidth (live.now env).1) :=
    passes_allocateBandwidth live.host _
  have hsent := sendOutgoing_passes env true
    ((live.now env).2.mapHost (·.allocateBandwidth (live.now env).1))
  exact hshared.trans hsent

inductive RoundEnds (live : LiveHost σ) (deadline : Stamp) :
    Option Event → LiveHost σ → Prop where
  /-- There is an event before anything is received. -/
  | opened {event : Event} {after : LiveHost σ}
      (hpop : (live.opening env).popEvent = (some event, after)) :
      RoundEnds live deadline (some event) after
  /-- What was received has brought an event. -/
  | received {event : Event} {middle after : LiveHost σ}
      (hquiet : (live.opening env).host.pending = [])
      (hreceive : (live.opening env).receiveIncoming env = .ok middle)
      (hpop : middle.popEvent = (some event, after)) : RoundEnds live deadline (some event) after
  /-- There is an event when what was received has been answered. -/
  | answered {event : Event} {middle after : LiveHost σ}
      (hquiet : (live.opening env).host.pending = [])
      (hreceive : (live.opening env).receiveIncoming env = .ok middle)
      (hstill : middle.host.pending = [])
      (hdispatch : (middle.sendOutgoing env true).dispatch = (some event, after)) :
      RoundEnds live deadline (some event) after
  /-- There is none, and the socket is waited for. -/
  | awaited {event : Option Event} {middle last after : LiveHost σ}
      (hquiet : (live.opening env).host.pending = [])
      (hreceive : (live.opening env).receiveIncoming env = .ok middle)
      (hstill : middle.host.pending = [])
      (hdispatch : (middle.sendOutgoing env true).dispatch = (none, last))
      (hawait : last.await env deadline = (event, after)) : RoundEnds live deadline event after

theorem roundEnds_of_serviceRound {deadline : Stamp}
    (h : live.serviceRound env deadline = .ok (event, after)) :
    live.RoundEnds env deadline event after := by
  unfold serviceRound at h
  dsimp only at h
  have hopening : ((live.now env).2.mapHost (·.allocateBandwidth (live.now env).1)).sendOutgoing
      env true = live.opening env := rfl
  rw [hopening] at h
  cases hpop : (live.opening env).popEvent with
  | mk found popped =>
    rw [hpop] at h
    cases found with
    | some first =>
      cases h
      exact .opened hpop
    | none =>
      obtain ⟨hquiet, rfl⟩ := popEvent_eq_none hpop
      dsimp only [bind, Except.bind] at h
      cases hreceive : (live.opening env).receiveIncoming env with
      | error fault =>
        rw [hreceive] at h
        cases h
      | ok middle =>
        rw [hreceive] at h
        dsimp only at h
        split at h
        · rename_i first next hpop
          cases h
          exact .received hquiet hreceive hpop
        · rename_i next hpop
          obtain ⟨hstill, rfl⟩ := popEvent_eq_none hpop
          split at h
          · rename_i found last hdispatch
            cases h
            exact .answered hquiet hreceive hstill hdispatch
          · rename_i last hdispatch
            exact .awaited hquiet hreceive hstill hdispatch (Except.ok.inj h)

/-- What was received without an event is answered. -/
theorem answer_served {middle last : LiveHost σ}
    (hreceive : live.receiveIncoming env = .ok middle) (hsound : live.host.table.Sound)
    (hquiet : live.host.pending = []) (hstill : middle.host.pending = [])
    (hdispatch : (middle.sendOutgoing env true).dispatch = (event, last)) :
    Served live.host event last.host := by
  have hreceived := (receiveIncoming_receives env hreceive hquiet hsound).rests hstill
  have hdispatched :=
    dispatch_served (sendOutgoing_passes env true middle) hreceived.sound hstill
  rw [hdispatch] at hdispatched
  exact hreceived.served hquiet hdispatched

/-- One round: what is sent, received, sent again and awaited. -/
theorem serviceRound_served {deadline : Stamp}
    (h : live.serviceRound env deadline = .ok (event, after)) (hsound : live.host.table.Sound)
    (hpending : live.host.pending = []) : Served live.host event after.host := by
  have hpasses := live.opening_passes env
  have hrests (hquiet : (live.opening env).host.pending = []) :
      Rests live.host (live.opening env).host := hpasses.rests hsound hquiet
  cases roundEnds_of_serviceRound env h with
  | opened hpop => exact hpasses.served hsound hpending (popEvent_eq_some hpop)
  | received hquiet hreceive hpop =>
    have hreceives := receiveIncoming_receives env hreceive hquiet (hrests hquiet).sound
    exact (hrests hquiet).served hpending (hreceives.served (popEvent_eq_some hpop))
  | answered hquiet hreceive hstill hdispatch =>
    have hanswered := answer_served env hreceive (hrests hquiet).sound hquiet hstill hdispatch
    exact (hrests hquiet).served hpending hanswered
  | awaited hquiet hreceive hstill hdispatch hawait =>
    have hanswered := answer_served env hreceive (hrests hquiet).sound hquiet hstill hdispatch
    have hlast := hanswered.rests hquiet
    have hawaited := await_served env _ deadline hlast.sound hlast.pending
    rw [hawait] at hawaited
    exact (hrests hquiet).served hpending (hlast.served hquiet hawaited)

inductive RoundsEnd (deadline : Stamp) :
    Nat → LiveHost σ → Option Event → LiveHost σ → Prop where
  | spent {live : LiveHost σ} : RoundsEnd deadline 0 live none live
  | found {rounds : Nat} {live after : LiveHost σ} {event : Event}
      (hround : live.serviceRound env deadline = .ok (some event, after)) :
      RoundsEnd deadline (rounds + 1) live (some event) after
  | passed {rounds : Nat} {live middle after : LiveHost σ} {event : Option Event}
      (hround : live.serviceRound env deadline = .ok (none, middle))
      (hrest : RoundsEnd deadline rounds middle event after) :
      RoundsEnd deadline (rounds + 1) live event after

theorem roundsEnd_of_serviceRounds {deadline : Stamp} {rounds : Nat}
    (h : live.serviceRounds env deadline rounds = .ok (event, after)) :
    RoundsEnd env deadline rounds live event after := by
  induction rounds generalizing live with
  | zero =>
    cases h
    exact .spent
  | succ rounds ih =>
    unfold serviceRounds at h
    cases hround : live.serviceRound env deadline with
    | error fault =>
      rw [hround] at h
      cases h
    | ok result =>
      obtain ⟨first, middle⟩ := result
      rw [hround] at h
      cases first with
      | some first =>
        cases h
        exact .found hround
      | none => exact .passed hround (ih h)

theorem serviceRounds_served {deadline : Stamp} {rounds : Nat}
    (h : live.serviceRounds env deadline rounds = .ok (event, after))
    (hsound : live.host.table.Sound) (hpending : live.host.pending = []) :
    Served live.host event after.host := by
  replace h := roundsEnd_of_serviceRounds env h
  induction h with
  | spent => exact served_of_eq hsound hpending (fun _ h ↦ by cases h) fun _ h ↦ by cases h
  | found hround => exact serviceRound_served env hround hsound hpending
  | passed hround _ ih =>
    have hrests := (serviceRound_served env hround hsound hpending).rests hpending
    exact hrests.served hpending (ih hrests.sound hrests.pending)

inductive ServiceEnds (live : LiveHost σ) (timeout : UInt32) (rounds : Nat) :
    Option Event → LiveHost σ → Prop where
  /-- There is an event once the requests are carried out. -/
  | dispatched {event : Event} {after : LiveHost σ}
      (hdispatch : (live.applyRequests env).dispatch = (some event, after)) :
      ServiceEnds live timeout rounds (some event) after
  /-- There is none, and the host sets itself a deadline. -/
  | served {event : Option Event} {middle after : LiveHost σ}
      (hdispatch : (live.applyRequests env).dispatch = (none, middle))
      (hrounds : (middle.now env).2.serviceRounds env ((middle.now env).1 + timeout) rounds =
        .ok (event, after)) : ServiceEnds live timeout rounds event after

theorem serviceEnds_of_service {timeout : UInt32} {rounds : Nat}
    (h : live.service env timeout rounds = .ok (event, after)) :
    live.ServiceEnds env timeout rounds event after := by
  unfold service at h
  cases hdispatch : (live.applyRequests env).dispatch with
  | mk found middle =>
    rw [hdispatch] at h
    cases found with
    | some found =>
      cases h
      exact .dispatched hdispatch
    | none => exact .served hdispatch h

end LiveHost

end ReliableDatagram
