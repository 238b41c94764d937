import ReliableDatagram.Host.Exchange
import ReliableDatagram.Proofs.Host.Slots

/-!
# What sending does to the connections of a host

Sending lets every connection go on in its slot, or frees the slot of one that is given up and
reports its end, once; a slot that is vacant stays so. The end of a connection that was only
being granted is not reported, since the application never heard of it.
-/

namespace ReliableDatagram

namespace Host

variable {host after : Host} {id : PeerId} {check : Bool}

/-- How often the end of a connection in a slot waits to be reported. -/
def departures (host : Host) (id : PeerId) : Nat := host.pending.count (.disconnected id)

theorem departures_eq_zero : host.departures id = 0 ↔ .disconnected id ∉ host.pending :=
  List.count_eq_zero

/-- What becomes of a slot and of the connection in it, with the reports of its end. -/
inductive Moves (id : PeerId) (host after : Host) : Prop where
  | vacant (hhost : host.peer? id = none) (hafter : after.peer? id = none)
      (hcount : after.departures id = host.departures id) : Moves id host after
  | goesOn {peer next : Peer} (hhost : host.peer? id = some peer)
      (hafter : after.peer? id = some next) (hnext : peer.Continues next)
      (hcount : after.departures id = host.departures id) : Moves id host after
  /-- The connection ends, its slot is freed, and the end is reported if the handshake of the
  connection was not still to be confirmed. -/
  | ends {peer last : Peer} (hhost : host.peer? id = some peer) (hafter : after.peer? id = none)
      (hlast : peer.Continues last)
      (hcount : after.departures id =
        host.departures id + if last.state = .acknowledgingConnect then 0 else 1) :
      Moves id host after

theorem Moves.of_eq (hpeer : after.peer? id = host.peer? id)
    (hcount : after.departures id = host.departures id) : Moves id host after := by
  cases hhost : host.peer? id with
  | none => exact .vacant hhost (hpeer.trans hhost) hcount
  | some peer => exact .goesOn hhost (hpeer.trans hhost) .refl hcount

/-- Of a slot that is vacant nothing is reported. -/
theorem Moves.of_none (h : Moves id host after) (hhost : host.peer? id = none) :
    after.peer? id = none ∧ after.departures id = host.departures id := by
  cases h with
  | vacant _ hafter hcount => exact ⟨hafter, hcount⟩
  | goesOn hother => exact absurd (hhost.symm.trans hother) (Option.some_ne_none _).symm
  | ends hother => exact absurd (hhost.symm.trans hother) (Option.some_ne_none _).symm

/-- A connection goes on or ends. -/
theorem Moves.of_some {peer : Peer} (h : Moves id host after) (hhost : host.peer? id = some peer) :
    (∃ next, after.peer? id = some next ∧ peer.Continues next ∧
        after.departures id = host.departures id) ∨
      ∃ last, after.peer? id = none ∧ peer.Continues last ∧ after.departures id =
        host.departures id + if last.state = .acknowledgingConnect then 0 else 1 := by
  cases h with
  | vacant hother => exact absurd (hother.symm.trans hhost) (Option.some_ne_none _).symm
  | goesOn hother hafter hnext hcount =>
    cases hother.symm.trans hhost
    exact .inl ⟨_, hafter, hnext, hcount⟩
  | ends hother hafter hlast hcount =>
    cases hother.symm.trans hhost
    exact .inr ⟨_, hafter, hlast, hcount⟩

theorem Moves.trans {middle : Host} (h : Moves id host middle) (hnext : Moves id middle after) :
    Moves id host after := by
  cases h with
  | vacant hhost hmiddle hcount =>
    obtain ⟨hafter, hsame⟩ := hnext.of_none hmiddle
    exact .vacant hhost hafter (hsame.trans hcount)
  | goesOn hhost hmiddle hcontinues hcount =>
    rcases hnext.of_some hmiddle with ⟨next, hafter, hmore, hsame⟩ | ⟨last, hafter, hmore, hends⟩
    · exact .goesOn hhost hafter (hcontinues.trans hmore) (hsame.trans hcount)
    · rw [hcount] at hends
      exact .ends hhost hafter (hcontinues.trans hmore) hends
  | ends hhost hmiddle hlast hcount =>
    obtain ⟨hafter, hsame⟩ := hnext.of_none hmiddle
    exact .ends hhost hafter hlast (hsame.trans hcount)

/-- A connection that stands goes on, or its end is reported. -/
theorem Moves.of_isStanding {peer : Peer} (h : Moves id host after)
    (hhost : host.peer? id = some peer) (hstanding : peer.state.isStanding = true) :
    (∃ next, after.peer? id = some next ∧ peer.Continues next ∧ next.state.isStanding = true ∧
        after.departures id = host.departures id) ∨
      ∃ last, after.peer? id = none ∧ peer.Continues last ∧
        after.departures id = host.departures id + 1 := by
  rcases h.of_some hhost with ⟨next, hafter, hnext, hcount⟩ | ⟨last, hafter, hlast, hcount⟩
  · exact .inl ⟨next, hafter, hnext, hnext.isStanding hstanding, hcount⟩
  · have hgranted : last.state ≠ .acknowledgingConnect := by
      intro heq
      have hstate := hlast.isStanding hstanding
      rw [heq] at hstate
      cases hstate
    rw [if_neg hgranted] at hcount
    exact .inr ⟨last, hafter, hlast, hcount⟩

/-- If nothing is reported, a connection that stood goes on. -/
theorem Moves.goesOn_of_pending {peer : Peer} (h : Moves id host after)
    (hpeer : host.peer? id = some peer) (hstanding : peer.state.isStanding = true)
    (hpending : after.pending = []) : ∃ next, after.peer? id = some next ∧
      peer.Continues next ∧ next.state.isStanding = true ∧
      after.departures id = host.departures id := by
  apply (h.of_isStanding hpeer hstanding).resolve_right
  rintro ⟨last, -, -, hcount⟩
  rw [departures, hpending, List.count_nil] at hcount
  omega

/-- A new report of an end comes with a slot that is vacant. -/
theorem Moves.vacant_of_mem (h : Moves id host after) (hmem : .disconnected id ∈ after.pending) :
    .disconnected id ∈ host.pending ∨ after.peer? id = none := by
  have hold (hcount : after.departures id = host.departures id) :
      .disconnected id ∈ host.pending := by
    by_contra hnew
    rw [departures_eq_zero.mpr hnew, departures_eq_zero] at hcount
    exact hcount hmem
  cases h with
  | vacant _ hafter => exact .inr hafter
  | goesOn _ _ _ hcount => exact .inl (hold hcount)
  | ends _ hafter => exact .inr hafter

/-! ## All slots -/

/-- Every connection was in its slot before, and is known as it was. -/
def Remains (host after : Host) : Prop :=
  ∀ id next, after.peer? id = some next → ∃ peer, host.peer? id = some peer ∧ peer.Stays next

theorem Remains.of_eq (hpeer : ∀ id, after.peer? id = host.peer? id) : Remains host after := by
  intro id next hnext
  exact ⟨next, (hpeer id).symm.trans hnext, .refl next⟩

theorem Remains.trans {middle : Host} (h : Remains host middle) (hnext : Remains middle after) :
    Remains host after := by
  intro id last hlast
  obtain ⟨next, hmiddle, hmore⟩ := hnext id last hlast
  obtain ⟨peer, hpeer, hstays⟩ := h id next hmiddle
  exact ⟨peer, hpeer, hstays.trans hmore⟩

/-- What sending, with or without a look for overdue commands, does to a host. -/
structure Passes (check : Bool) (host after : Host) : Prop where
  moves : ∀ id, Moves id host after
  remains : Remains host after
  sound : host.table.Sound → after.table.Sound
  connected : ∀ id, .connected id ∈ after.pending → .connected id ∈ host.pending
  quiet : check = false → ∀ id, after.departures id = host.departures id

namespace Passes

theorem of_eq (hpeer : ∀ id, after.peer? id = host.peer? id) (hsound : host.table.Sound →
      after.table.Sound) (hpending : after.pending = host.pending) : Passes check host after where
  moves id := .of_eq (hpeer id) (by rw [departures, departures, hpending])
  remains := .of_eq hpeer
  sound := hsound
  connected id hmem := by rwa [hpending] at hmem
  quiet _ id := by rw [departures, departures, hpending]

theorem refl (check : Bool) (host : Host) : Passes check host host := of_eq (fun _ ↦ rfl) id rfl

theorem trans {middle : Host} (h : Passes check host middle) (hnext : Passes check middle after) :
    Passes check host after where
  moves id := (h.moves id).trans (hnext.moves id)
  remains := h.remains.trans hnext.remains
  sound hsound := hnext.sound (h.sound hsound)
  connected id hmem := h.connected id (hnext.connected id hmem)
  quiet hcheck id := (hnext.quiet hcheck id).trans (h.quiet hcheck id)

end Passes

/-! ## Changes of a host -/

theorem peer?_setPeer {peer next : Peer} (h : host.peer? id = some peer) (other : PeerId) :
    (host.setPeer id next).peer? other = if other = id then some next else host.peer? other :=
  SlotTable.get?_set h other

theorem peer?_setPeer_self {peer next : Peer} (h : host.peer? id = some peer) :
    (host.setPeer id next).peer? id = some next :=
  (peer?_setPeer h id).trans (if_pos rfl)

theorem peer?_setPeer_of_ne {peer next : Peer} {other : PeerId} (h : host.peer? id = some peer)
    (hne : other ≠ id) : (host.setPeer id next).peer? other = host.peer? other :=
  (peer?_setPeer h other).trans (if_neg hne)

theorem peer?_release (host : Host) (id other : PeerId) :
    (host.release id).peer? other = if other = id then none else host.peer? other :=
  SlotTable.get?_release host.table id other

theorem peer?_release_self (host : Host) (id : PeerId) : (host.release id).peer? id = none :=
  (peer?_release host id id).trans (if_pos rfl)

theorem peer?_release_of_ne {other : PeerId} (host : Host) (hne : other ≠ id) :
    (host.release id).peer? other = host.peer? other :=
  (peer?_release host id other).trans (if_neg hne)

theorem pending_reportDeparture (host : Host) (id : PeerId) (state : PeerState) :
    (host.reportDeparture id state).pending =
      host.pending ++ if state = .acknowledgingConnect then [] else [.disconnected id] := by
  cases state <;> simp [reportDeparture, requestRecalculation, pushEvent]

theorem table_reportDeparture (host : Host) (id : PeerId) (state : PeerState) :
    (host.reportDeparture id state).table = host.table := by
  cases state <;> rfl

/-- A connection goes on in its slot, wherever its other end is. -/
theorem moves_setPeer {peer next : Peer} (hpeer : host.peer? id = some peer)
    (hnext : peer.Continues next) (other : PeerId) : Moves other host (host.setPeer id next) := by
  by_cases heq : other = id
  · subst heq
    exact .goesOn hpeer (peer?_setPeer_self hpeer) hnext rfl
  · exact .of_eq (peer?_setPeer_of_ne hpeer heq) rfl

theorem remains_setPeer {peer next : Peer} (hpeer : host.peer? id = some peer)
    (hnext : peer.Stays next) : Remains host (host.setPeer id next) := by
  intro other found hfound
  rw [peer?_setPeer hpeer] at hfound
  split at hfound
  · rename_i heq
    cases hfound
    exact ⟨peer, heq ▸ hpeer, hnext⟩
  · exact ⟨found, hfound, .refl found⟩

theorem remains_release (host : Host) (id : PeerId) : Remains host (host.release id) := by
  intro other found hfound
  rw [peer?_release] at hfound
  split at hfound
  · cases hfound
  · exact ⟨found, hfound, .refl found⟩

/-- A connection goes on in its slot, known as before, and nothing is reported. -/
theorem passes_setPeer {peer next : Peer} (hpeer : host.peer? id = some peer)
    (hnext : peer.Stays next) : Passes check host (host.setPeer id next) where
  moves := moves_setPeer hpeer hnext.continues
  remains := remains_setPeer hpeer hnext
  sound hsound := hsound.set hpeer
  connected _ hmem := hmem
  quiet _ _ := rfl

/-- A connection ends, and its end is reported. -/
theorem passes_end {peer last : Peer} (hpeer : host.peer? id = some peer)
    (hlast : peer.Continues last) :
    Passes true host ((host.release id).reportDeparture id last.state) where
  moves other := by
    have hslot : ((host.release id).reportDeparture id last.state).peer? other =
        if other = id then none else host.peer? other := by
      rw [peer?, table_reportDeparture]
      exact peer?_release host id other
    have hcount : ((host.release id).reportDeparture id last.state).departures other =
        host.departures other + if last.state = .acknowledgingConnect then 0
          else if id = other then 1 else 0 := by
      rw [departures, pending_reportDeparture, List.count_append]
      split
      · rfl
      · rw [List.count_singleton]
        simp [departures, release]
    by_cases heq : other = id
    · subst heq
      rw [if_pos rfl] at hslot hcount
      exact .ends hpeer hslot hlast hcount
    · rw [if_neg heq] at hslot
      rw [if_neg (Ne.symm heq), ite_self] at hcount
      exact .of_eq hslot hcount
  remains := by
    refine (remains_release host id).trans (.of_eq fun other ↦ ?_)
    rw [peer?, table_reportDeparture]
    rfl
  sound hsound := by
    rw [table_reportDeparture]
    exact hsound.release id
  connected other hmem := by
    rw [pending_reportDeparture] at hmem
    rcases List.mem_append.mp hmem with hmem | hmem
    · exact hmem
    · split at hmem
      · cases hmem
      · cases List.mem_singleton.mp hmem
  quiet hcheck := by cases hcheck

/-- A failure of the socket is reported. -/
theorem passes_failed (host : Host) (cause : IoCause) :
    Passes check host (host.pushEvent (.failed cause)) where
  moves id := by
    refine .of_eq rfl ?_
    rw [departures, pushEvent, List.count_append]
    rfl
  remains := .of_eq fun _ ↦ rfl
  sound hsound := hsound
  connected id hmem := by
    rcases List.mem_append.mp hmem with hmem | hmem
    · exact hmem
    · cases List.mem_singleton.mp hmem
  quiet _ id := by
    rw [departures, pushEvent, List.count_append]
    rfl

/-- All connections go on in their slots, and nothing is reported. -/
theorem passes_evolves {slots : List (Option Peer)}
    (hslots : SlotTable.Evolves host.table.slots.toList slots)
    (htable : after.table = { host.table with slots := slots.toArray })
    (hpending : after.pending = host.pending) : Passes check host after where
  moves id := by
    have hcount : after.departures id = host.departures id := by
      rw [departures, departures, hpending]
    have hrel := hslots.get? id
    rw [← htable] at hrel
    generalize hold : host.table.get? id = old at hrel
    generalize hnew : after.table.get? id = new at hrel
    cases hrel with
    | none => exact .vacant hold hnew hcount
    | some hnext => exact .goesOn hold hnew hnext.continues hcount
  remains id next hnext := by
    have hrel := hslots.get? id
    rw [← htable] at hrel
    rw [show after.table.get? id = some next from hnext] at hrel
    generalize hold : host.table.get? id = old at hrel
    cases hrel with
    | some hstays => exact ⟨_, hold, hstays⟩
  sound hsound := by
    rw [htable]
    exact hsound.evolves hslots
  connected id hmem := by rwa [hpending] at hmem
  quiet _ id := by rw [departures, departures, hpending]

theorem passes_allocateBandwidth (host : Host) (now : Stamp) :
    Passes check host (host.allocateBandwidth now) := by
  unfold allocateBandwidth
  split
  · obtain ⟨slots, hslots, htable⟩ := host.allocator.run_slotwise (host.context now)
      host.settings.throttleScale host.table
    exact passes_evolves hslots.evolves htable rfl
  · exact .refl check host

end Host

namespace LiveHost

open Host

variable {σ : Type} (env : Environment σ)

/-- Reading the clock changes nothing but the surroundings. -/
theorem now_host (live : LiveHost σ) : (live.now env).2.host = live.host := rfl

theorem transmit_passes (live : LiveHost σ) (address : Address) (datagram : Bytes)
    (check : Bool) : Passes check live.host (live.transmit env address datagram).host := by
  unfold transmit
  split
  · exact .refl check live.host
  · split
    · exact .refl check live.host
    · exact passes_failed live.host _

inductive SendingEnds (now : Stamp) (check : Bool) (id : PeerId) (live : LiveHost σ) :
    Bool × LiveHost σ → Prop where
  | silent : SendingEnds now check id live (false, live)
  /-- The connection has nothing that can be sent. -/
  | kept {peer next : Peer} {result : Except EncodeError Composition}
      (hpeer : live.host.peer? id = some peer) (hcompose : peer.compose now check = (result, next))
      (hgoes : result ≠ .ok .timedOut) (hactive : peer.state.isActive = true) :
      SendingEnds now check id live (false, live.mapHost (·.setPeer id next))
  | sent {peer next : Peer} {address : Address} {datagram : Bytes}
      (hpeer : live.host.peer? id = some peer)
      (hcompose : peer.compose now check = (.ok (.datagram datagram), next))
      (haddress : peer.address = some address) (hactive : peer.state.isActive = true) :
      SendingEnds now check id live
        (true, (live.mapHost (·.setPeer id next)).transmit env address datagram)
  /-- The connection is given up. -/
  | gaveUp {peer next : Peer} (hpeer : live.host.peer? id = some peer)
      (hcompose : peer.compose now check = (.ok .timedOut, next))
      (hactive : peer.state.isActive = true) :
      SendingEnds now check id live
        (false, live.mapHost fun host ↦ (host.release id).reportDeparture id peer.state)

theorem sendFrom_ends (now : Stamp) (check : Bool) (id : PeerId) (live : LiveHost σ) :
    live.SendingEnds env now check id (live.sendFrom env now check id) := by
  unfold sendFrom
  split
  · exact .silent
  · rename_i peer hpeer
    split
    · exact .silent
    · rename_i address haddress
      split
      · rename_i hactive
        split
        · rename_i hcompose
          exact .kept hpeer hcompose nofun hactive
        · rename_i hcompose
          exact .sent hpeer hcompose haddress hactive
        · rename_i hcompose
          exact .gaveUp hpeer hcompose hactive
        · rename_i hcompose
          exact .kept hpeer hcompose nofun hactive
      · exact .silent

/-- What reading the clock and sending from a slot do, over and over, is what sending does. -/
theorem sendOutgoing_induction {check : Bool} (does : LiveHost σ → LiveHost σ → Prop)
    (hrefl : ∀ live, does live live)
    (htrans : ∀ {live middle after : LiveHost σ}, does live middle → does middle after →
      does live after)
    (hnow : ∀ live, does live (live.now env).2)
    (hsend : ∀ now id live, does live (live.sendFrom env now check id).2) (live : LiveHost σ) :
    does live (live.sendOutgoing env check) := by
  have hpass (now : Stamp) (sent : Bool) (indices : List Nat) (live : LiveHost σ) :
      does live (live.sendPass env now check sent indices).2 := by
    induction indices generalizing live sent with
    | nil => exact hrefl live
    | cons index rest ih => exact htrans (hsend now _ live) (ih _ _)
  have hpasses (now : Stamp) (passes : Nat) (live : LiveHost σ) :
      does live (live.sendPasses env now check passes) := by
    induction passes generalizing live with
    | zero => exact hrefl live
    | succ passes ih =>
      have hfirst := hpass now false (List.range live.host.table.capacity) live
      unfold sendPasses
      generalize live.sendPass env now check false _ = result at hfirst ⊢
      obtain ⟨sent, middle⟩ := result
      cases sent with
      | false => exact hfirst
      | true => exact htrans hfirst (ih middle)
  exact htrans (hnow live) (hpasses _ _ _)

theorem sendFrom_passes (now : Stamp) (check : Bool) (id : PeerId) (live : LiveHost σ) :
    Passes check live.host (live.sendFrom env now check id).2.host := by
  have hstep {peer next : Peer} {result : Except EncodeError Composition}
      (hpeer : live.host.peer? id = some peer) (hcompose : peer.compose now check = (result, next))
      (hgoes : result ≠ .ok .timedOut) : Passes check live.host (live.host.setPeer id next) := by
    have hstays : (peer.compose now check).1 ≠ .ok .timedOut := by rwa [hcompose]
    have hpasses : Passes check live.host (live.host.setPeer id (peer.compose now check).2) :=
      passes_setPeer hpeer (Peer.compose_stays hstays)
    rwa [hcompose] at hpasses
  have hends := live.sendFrom_ends env now check id
  generalize live.sendFrom env now check id = result at hends ⊢
  cases hends with
  | silent => exact .refl check live.host
  | kept hpeer hcompose hgoes => exact hstep hpeer hcompose hgoes
  | @sent _ next address datagram hpeer hcompose =>
    exact (hstep hpeer hcompose nofun).trans
      (transmit_passes env (live.mapHost (·.setPeer id next)) address datagram check)
  | @gaveUp peer _ hpeer hcompose =>
    rcases peer.compose_state now check with ⟨-, rfl⟩ | ⟨hgoes, -⟩
    · exact passes_end hpeer .refl
    · rw [hcompose] at hgoes
      exact absurd rfl hgoes

/-- Whatever is sent, every connection goes on or ends with a report. -/
theorem sendOutgoing_passes (check : Bool) (live : LiveHost σ) :
    Passes check live.host (live.sendOutgoing env check).host :=
  sendOutgoing_induction env (fun live after ↦ Passes check live.host after.host)
    (fun live ↦ .refl check live.host) .trans (fun live ↦ .refl check live.host)
    (fun now ↦ sendFrom_passes env now check) live

end LiveHost

end ReliableDatagram
