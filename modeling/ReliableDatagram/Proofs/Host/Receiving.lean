import ReliableDatagram.Proofs.Host.Sending

/-!
# What receiving does to the connections of a host

A datagram lets the connection it belongs to go on or end, and may open a connection in a
vacant slot; all other connections stay as they are. Receiving stops at the first event. So
what it leaves to be reported is one event at most: a failure of the socket, the end of a
connection whose slot is vacant again, or the beginning of one that stands in its slot.
-/

namespace ReliableDatagram

namespace Peer

variable {peer after : Peer} {header : Header} {command : Command} {context : Context}
  {event : Option PeerEvent}

/-- A connection that this end has not begun to leave goes on standing, without a report. -/
theorem handle_of_isStanding (h : peer.handle header command context = .ok (event, after))
    (hstanding : peer.state.isStanding = true) (hstays : peer.state ≠ .disconnecting) :
    event = none ∧ after.state.isStanding = true ∧ after.state ≠ .disconnecting := by
  have hturns := handle_turns h
  generalize peer.state = state at hstanding hstays hturns
  generalize after.state = next at hturns ⊢
  cases hturns with
  | same => exact ⟨rfl, hstanding, hstays⟩
  | confirmed => cases hstanding
  | granted => cases hstanding
  | refused => cases hstanding
  | departed => exact absurd rfl hstays
  | crossed => exact absurd rfl hstays
  | left => exact ⟨rfl, rfl, by decide⟩
  | gone => exact ⟨rfl, rfl, by decide⟩
  | aborted hstate => rw [hstate] at hstanding; cases hstanding

/-- A connection that is reported to stand is connected. -/
theorem handle_connected (h : peer.handle header command context = .ok (some .connected, after)) :
    after.state = .connected := by
  have hturns := handle_turns h
  generalize peer.state = state at hturns
  generalize after.state = next at hturns ⊢
  cases hturns with
  | confirmed => rfl
  | granted => rfl

end Peer

namespace Host

variable {host after : Host} {id : PeerId} {header : Header} {command : Command}
  {context : Context} {address : Address}

/-! ## Commands of a connection -/

inductive Outcome (host : Host) (id : PeerId) : Bool → Host → Prop where
  | absent (hhost : host.peer? id = none) : Outcome host id false host
  | goesOn {peer next : Peer} (hhost : host.peer? id = some peer) (hnext : peer.Stays next)
      (hstays : peer.state.isStanding = true → peer.state ≠ .disconnecting →
        next.state.isStanding = true ∧ next.state ≠ .disconnecting) :
      Outcome host id true (host.setPeer id next)
  | connected {peer next : Peer} (hhost : host.peer? id = some peer) (hnext : peer.Stays next)
      (hstate : next.state = .connected)
      (hbefore : peer.state.isStanding = true → peer.state = .disconnecting) :
      Outcome host id true
        ((host.setPeer id next).requestRecalculation.pushEvent (.connected id))
  | ends {peer next : Peer} (hhost : host.peer? id = some peer)
      (hbefore : peer.state.isStanding = true → peer.state = .disconnecting) :
      Outcome host id false (((host.setPeer id next).release id).reportDeparture id peer.state)

/-- What a host does with a connection that has handled a command. -/
inductive Resolves (host : Host) (id : PeerId) (header : Header) (command : Command)
    (context : Context) : Bool → Host → Prop where
  | absent (hhost : host.peer? id = none) : Resolves host id header command context false host
  | goesOn {peer next : Peer} (hhost : host.peer? id = some peer)
      (hhandle : peer.handle header command context = .ok (none, next))
      (halive : next.state ≠ .disconnected) :
      Resolves host id header command context true (host.setPeer id next)
  | connected {peer next : Peer} (hhost : host.peer? id = some peer)
      (hhandle : peer.handle header command context = .ok (some .connected, next)) :
      Resolves host id header command context true
        ((host.setPeer id next).requestRecalculation.pushEvent (.connected id))
  | ends {peer next : Peer} {event : Option PeerEvent} (hhost : host.peer? id = some peer)
      (hhandle : peer.handle header command context = .ok (event, next))
      (hover : event = some .disconnected ∨ event = none ∧ next.state = .disconnected) :
      Resolves host id header command context false
        (((host.setPeer id next).release id).reportDeparture id peer.state)

theorem handleCommand_resolves {goesOn : Bool}
    (h : host.handleCommand id header command context = .ok (goesOn, after)) :
    Resolves host id header command context goesOn after := by
  unfold handleCommand at h
  cases hhost : host.peer? id with
  | none =>
    rw [hhost] at h
    cases h
    exact .absent hhost
  | some peer =>
    rw [hhost] at h
    cases hhandle : peer.handle header command context with
    | error fault =>
      simp only [hhandle] at h
      cases h
    | ok result =>
      obtain ⟨event, next⟩ := result
      simp only [hhandle] at h
      cases event with
      | some event =>
        cases event with
        | connected =>
          cases h
          exact .connected hhost hhandle
        | disconnected =>
          cases h
          exact .ends hhost hhandle (.inl rfl)
      | none =>
        dsimp only [bind, Except.bind] at h
        split at h
        · rename_i hover
          cases h
          exact .ends hhost hhandle (.inr ⟨rfl, hover⟩)
        · rename_i halive
          cases h
          exact .goesOn hhost hhandle halive

theorem handleCommand_outcome {goesOn : Bool}
    (h : host.handleCommand id header command context = .ok (goesOn, after)) :
    Outcome host id goesOn after := by
  cases handleCommand_resolves h with
  | absent hhost => exact .absent hhost
  | goesOn hhost hhandle halive =>
    exact .goesOn hhost (Peer.handle_stays hhandle (by decide) halive)
      fun hstanding hstays ↦ (Peer.handle_of_isStanding hhandle hstanding hstays).2
  | connected hhost hhandle =>
    have hstate := Peer.handle_connected hhandle
    refine .connected hhost (Peer.handle_stays hhandle (by decide) ?_) hstate fun hstanding ↦ ?_
    · rw [hstate]
      decide
    · by_contra hstays
      cases (Peer.handle_of_isStanding hhandle hstanding hstays).1
  | ends hhost hhandle hover =>
    refine .ends hhost fun hstanding ↦ ?_
    by_contra hstays
    obtain ⟨hevent, hnext, -⟩ := Peer.handle_of_isStanding hhandle hstanding hstays
    rcases hover with hgone | ⟨-, hover⟩
    · cases hevent.symm.trans hgone
    · rw [hover] at hnext
      cases hnext

/-- Freeing a slot forgets what its connection has last become. -/
theorem release_setPeer {peer next : Peer} (hpeer : host.peer? id = some peer) :
    (host.setPeer id next).release id = host.release id := by
  have hset : (host.table.set id next).get? id = some next := by
    rw [SlotTable.get?_set hpeer, if_pos rfl]
  have hslots : (host.table.set id next).slots.setIfInBounds id.index none =
      host.table.slots.setIfInBounds id.index none := Array.setIfInBounds_setIfInBounds ..
  rw [release, setPeer, release, SlotTable.release, hset, SlotTable.release,
    show host.table.get? id = some peer from hpeer]
  dsimp only
  rw [hslots]
  rfl

theorem Outcome.passes {goesOn : Bool} (h : Outcome host id goesOn after) :
    (∀ other, Moves other host after) ∧ (host.table.Sound → after.table.Sound) := by
  cases h with
  | absent => exact ⟨(Passes.refl true host).moves, fun hsound ↦ hsound⟩
  | @goesOn _ next hhost hnext =>
    have hpasses : Passes true host (host.setPeer id next) := passes_setPeer hhost hnext
    exact ⟨hpasses.moves, hpasses.sound⟩
  | @connected _ next hhost hnext =>
    have hpasses : Passes true host (host.setPeer id next) := passes_setPeer hhost hnext
    refine ⟨fun other ↦ (hpasses.moves other).trans (.of_eq rfl ?_), hpasses.sound⟩
    rw [departures, pushEvent, List.count_append]
    rfl
  | @ends peer next hhost =>
    rw [release_setPeer hhost]
    have hpasses := passes_end hhost .refl
    exact ⟨hpasses.moves, hpasses.sound⟩

/-! ## Events to report -/

/-- The one event at most that receiving leaves to be reported. -/
inductive Announces (host : Host) : Prop where
  | nothing (hpending : host.pending = []) : Announces host
  | failed {cause : IoCause} (hpending : host.pending = [.failed cause]) : Announces host
  /-- A connection is over, and its slot is vacant. -/
  | departed {id : PeerId} (hpending : host.pending = [.disconnected id])
      (hpeer : host.peer? id = none) : Announces host
  /-- A connection stands in its slot. -/
  | connected {id : PeerId} {peer : Peer} (hpending : host.pending = [.connected id])
      (hpeer : host.peer? id = some peer) (hstanding : peer.state.isStanding = true) :
      Announces host

/-- Nothing is to be reported, or that the connection in a slot has come to stand. -/
def Greets (host : Host) (id : PeerId) : Prop :=
  host.pending = [] ∨ host.pending = [.connected id] ∧ ∃ peer, host.peer? id = some peer ∧
    peer.state.isStanding = true ∧ peer.state ≠ .disconnecting

theorem Greets.announces (h : host.Greets id) : host.Announces := by
  rcases h with hpending | ⟨hpending, peer, hpeer, hstanding, -⟩
  · exact .nothing hpending
  · exact .connected hpending hpeer hstanding

theorem Outcome.announces {goesOn : Bool} (h : Outcome host id goesOn after)
    (hgreets : host.Greets id) : if goesOn then after.Greets id else after.Announces := by
  cases h with
  | absent => exact hgreets.announces
  | goesOn hhost hnext hstays =>
    rcases hgreets with hpending | ⟨hpending, peer, hpeer, hstanding, hstaying⟩
    · exact .inl hpending
    · cases hhost.symm.trans hpeer
      exact .inr ⟨hpending, _, peer?_setPeer_self hhost, hstays hstanding hstaying⟩
  | @connected peer next hhost hnext hstate hbefore =>
    rcases hgreets with hpending | ⟨-, other, hother, hstanding, hstaying⟩
    · refine .inr ⟨?_, next, ?_, ?_⟩
      · change host.pending ++ [.connected id] = _
        rw [hpending, List.nil_append]
      · exact peer?_setPeer_self hhost
      · rw [hstate]
        exact ⟨rfl, by decide⟩
    · cases hhost.symm.trans hother
      exact absurd (hbefore hstanding) hstaying
  | @ends peer next hhost hbefore =>
    rcases hgreets with hpending | ⟨-, other, hother, hstanding, hstaying⟩
    · have hreported := ((host.setPeer id next).release id).pending_reportDeparture id peer.state
      rw [show ((host.setPeer id next).release id).pending = [] from hpending,
        List.nil_append] at hreported
      split at hreported
      · exact .nothing hreported
      · refine .departed hreported ?_
        rw [peer?, table_reportDeparture]
        exact SlotTable.get?_release_self ..
    · cases hhost.symm.trans hother
      exact absurd (hbefore hstanding) hstaying

/-! ## Datagrams -/

/-- What a part of a datagram does: the connections there are move on, and one event at most
is to be reported. -/
structure Takes (host after : Host) : Prop where
  moves : ∀ id, host.peer? id ≠ none → Moves id host after
  sound : host.table.Sound → after.table.Sound
  announces : after.Announces

theorem Takes.of_announces (h : host.Announces) : Takes host host where
  moves id _ := (Passes.refl true host).moves id
  sound hsound := hsound
  announces := h

/-- The commands of a datagram for one connection touch no other one. -/
theorem handleCommands_some {count : Nat} {bytes : Bytes}
    (h : handleCommands header address context count (some id) bytes host = .ok after)
    (hgreets : host.Greets id) : (∀ other, Moves other host after) ∧
      (host.table.Sound → after.table.Sound) ∧ after.Announces := by
  have hnothing {host : Host} (hgreets : host.Greets id) : (∀ other, Moves other host host) ∧
      (host.table.Sound → host.table.Sound) ∧ host.Announces :=
    ⟨(Passes.refl true host).moves, fun hsound ↦ hsound, hgreets.announces⟩
  induction count generalizing bytes host with
  | zero =>
    cases h
    exact hnothing hgreets
  | succ count ih =>
    unfold handleCommands at h
    split at h
    · cases h
      exact hnothing hgreets
    · split at h
      · cases h
        exact hnothing hgreets
      · rename_i command rest _
        dsimp only at h
        cases hhandle : host.handleCommand id header command context with
        | error fault =>
          rw [hhandle] at h
          cases h
        | ok result =>
          obtain ⟨goesOn, middle⟩ := result
          rw [hhandle] at h
          have houtcome := handleCommand_outcome hhandle
          obtain ⟨hmoves, hsound⟩ := houtcome.passes
          have hannounces := houtcome.announces hgreets
          cases goesOn with
          | false =>
            cases h
            exact ⟨hmoves, hsound, hannounces⟩
          | true =>
            obtain ⟨hmore, hkeeps, hlast⟩ := ih h hannounces
            exact ⟨fun other ↦ (hmoves other).trans (hmore other),
              fun htable ↦ hkeeps (hsound htable), hlast⟩

/-- A connection that was not there is opened in a slot that was vacant. -/
structure Opens (host : Host) (address : Address) (header : Header) (command : Command)
    (offer : Handshake) (context : Context) (id : PeerId) (after : Host) : Prop where
  unknown : host.table.hasConnection address header.challenge = false
  vacant : host.peer? id = none
  opened : ∃ slot peer, slot.settings = host.table.settings ∧
    Peer.accept slot address header command offer context = .ok peer ∧ after.peer? id = some peer
  others : ∀ other ≠ id, after.peer? other = host.peer? other
  settings : after.table.settings = host.table.settings
  sound : after.table.Sound
  pending : after.pending = host.pending

theorem accept_eq_ok {offer : Handshake}
    (h : host.accept address header command offer context = .ok (some (id, after))) :
    host.table.hasConnection address header.challenge = false ∧
      ∃ slot table peer, host.table.allocate = some (id, slot, table) ∧
        slot.accept address header command offer context = .ok peer ∧
        after = { host with table := table.set id peer } := by
  unfold accept at h
  split at h
  · cases h
  · split at h
    · cases h
    · rename_i hunknown
      split at h
      · cases h
      · rename_i slot fresh table hallocate
        cases haccept : fresh.accept address header command offer context with
        | error fault =>
          rw [haccept] at h
          cases h
        | ok peer =>
          rw [haccept] at h
          cases h
          exact ⟨eq_false_of_ne_true hunknown, fresh, table, peer, hallocate, haccept, rfl⟩

theorem accept_opens {offer : Handshake} (h : host.accept address header command offer context =
      .ok (some (id, after))) (hsound : host.table.Sound) :
    Opens host address header command offer context id after := by
  obtain ⟨hunknown, slot, table, peer, hallocate, haccept, rfl⟩ := accept_eq_ok h
  obtain ⟨hafter, hvacant, hslot, hsame⟩ := hsound.allocate hallocate
  obtain ⟨hsettings, htable⟩ := SlotTable.settings_of_allocate hallocate
  have hopened : (table.set id peer).get? id = some peer := by
    rw [SlotTable.get?_set hslot, if_pos rfl]
  refine {
    unknown := hunknown
    vacant := hvacant
    opened := ⟨slot, peer, hsettings, haccept, hopened⟩
    others := fun other hne ↦ ?_
    settings := htable
    sound := hafter.set hslot
    pending := rfl }
  exact (SlotTable.get?_set_of_ne table peer hne).trans (hsame other hne)

/-- A connection that is opened leaves all others in their slots. -/
theorem Opens.kept {offer : Handshake} {other : PeerId}
    (h : Opens host address header command offer context id after)
    (hother : host.peer? other ≠ none) : after.peer? other = host.peer? other := by
  apply h.others
  rintro rfl
  exact hother h.vacant

/-- A datagram without a connection changes nothing, or its first command opens one, which the
others are for. -/
theorem handleCommands_opens {count : Nat} {bytes : Bytes}
    (h : handleCommands header address context count none bytes host = .ok after)
    (hsound : host.table.Sound) : after = host ∨
      ∃ command offer id middle left rest,
        host.accept address header command offer context = .ok (some (id, middle)) ∧
        Opens host address header command offer context id middle ∧
        handleCommands header address context left (some id) rest middle = .ok after := by
  cases count with
  | zero =>
    cases h
    exact .inl rfl
  | succ count =>
    unfold handleCommands at h
    split at h
    · cases h
      exact .inl rfl
    · split at h
      · cases h
        exact .inl rfl
      · rename_i command rest _
        dsimp only at h
        split at h
        · rename_i offer _
          cases haccept : host.accept address header command offer context with
          | error fault =>
            rw [haccept] at h
            cases h
          | ok result =>
            rw [haccept] at h
            cases result with
            | none =>
              cases h
              exact .inl rfl
            | some opened =>
              obtain ⟨id, middle⟩ := opened
              exact .inr ⟨command, offer, id, middle, count, rest, haccept,
                accept_opens haccept hsound, h⟩
        · cases h
          exact .inl rfl

/-- A datagram belongs to a connection: that is active, has the challenge of the header, and is
known at the network address that the datagram comes from. -/
structure Belongs (host : Host) (address : Address) (header : Header) (peer : Peer)
    (known : Address) : Prop where
  slot : host.peer? header.peer = some peer
  active : peer.state.isActive = true
  challenge : peer.challenge = header.challenge
  network : known.host = address.host
  address : peer.address = some known

/-- A datagram that belongs to a connection is counted there, and may move its other end. -/
theorem matchPeer_eq_some {length : Nat}
    (h : host.matchPeer header address length = some (id, after)) :
    id = header.peer ∧ ∃ peer known, host.Belongs address header peer known ∧
      after = host.setPeer id ((peer.relocate address).recordReceived length) := by
  unfold matchPeer at h
  split at h
  · cases h
  · rename_i peer hpeer
    split at h
    · cases h
    · rename_i hrefused
      simp only [Bool.or_eq_true, Bool.not_eq_true', bne_iff_ne, not_or, Bool.not_eq_false,
        Decidable.not_not] at hrefused
      split at h
      · cases h
      · rename_i known hknown
        split at h
        · rename_i hnetwork
          cases h
          exact ⟨rfl, peer, known, ⟨hpeer, hrefused.1, hrefused.2, hnetwork, hknown⟩, rfl⟩
        · cases h

inductive Delivers (host : Host) (address : Address) (header : Header) (length : Nat)
    (context : Context) : Host → Prop where
  | nothing : Delivers host address header length context host
  /-- It opens a connection, which its other commands are for. -/
  | opened {command : Command} {offer : Handshake} {id : PeerId} {middle after : Host}
      {left : Nat} {rest : Bytes} (hunassigned : header.isUnassigned = true)
      (hopens : Opens host address header command offer context id middle)
      (hrest : handleCommands header address context left (some id) rest middle = .ok after)
      (haccept : host.accept address header command offer context = .ok (some (id, middle))) :
      Delivers host address header length context after
  /-- It is for the connection that it names. -/
  | named {peer : Peer} {known : Address} {count : Nat} {bytes : Bytes} {after : Host}
      (hnamed : header.isUnassigned = false) (hbelongs : host.Belongs address header peer known)
      (hcommands : handleCommands header address context count (some header.peer) bytes
        (host.setPeer header.peer ((peer.relocate address).recordReceived length)) = .ok after) :
      Delivers host address header length context after

theorem delivers_of_handleContent {length : Nat} {content : Bytes} {now : Stamp}
    (h : host.handleContent address header length content now = .ok after)
    (hsound : host.table.Sound) :
    Delivers host address header length (host.context now) after := by
  unfold handleContent at h
  dsimp only at h
  split at h
  · rename_i hunassigned
    rcases handleCommands_opens h hsound with rfl |
      ⟨command, offer, id, middle, left, rest, haccept, hopens, hrest⟩
    · exact .nothing
    · exact .opened hunassigned hopens hrest haccept
  · rename_i hnamed
    split at h
    · cases h
      exact .nothing
    · rename_i id middle hmatch
      obtain ⟨rfl, peer, known, hbelongs, rfl⟩ := matchPeer_eq_some hmatch
      exact .named (eq_false_of_ne_true hnamed) hbelongs h

theorem handleContent_takes {length : Nat} {content : Bytes} {now : Stamp}
    (h : host.handleContent address header length content now = .ok after)
    (hpending : host.pending = []) (hsound : host.table.Sound) : Takes host after := by
  cases delivers_of_handleContent h hsound with
  | nothing => exact .of_announces (.nothing hpending)
  | opened _ hopens hrest =>
    obtain ⟨hmoves, hkeeps, hannounces⟩ :=
      handleCommands_some hrest (.inl (hopens.pending.trans hpending))
    refine ⟨fun other hother ↦ ?_, fun _ ↦ hkeeps hopens.sound, hannounces⟩
    refine Moves.trans (.of_eq (hopens.kept hother) ?_) (hmoves other)
    rw [departures, departures, hopens.pending]
  | @named peer known _ _ _ _ hbelongs hcommands =>
    have hcounted : peer.Continues ((peer.relocate address).recordReceived length) :=
      .tail (.single (.relocate _)) (.recordReceived _)
    obtain ⟨hmoves, hkeeps, hannounces⟩ := handleCommands_some hcommands (.inl hpending)
    exact ⟨fun other _ ↦ (moves_setPeer hbelongs.slot hcounted other).trans (hmoves other),
      fun htable ↦ hkeeps (htable.set hbelongs.slot), hannounces⟩

/-- What receiving does: connections that stand move on, and one event at most is to be
reported. -/
structure Receives (host after : Host) : Prop where
  moves : ∀ id peer, host.peer? id = some peer → peer.state.isStanding = true →
    Moves id host after
  sound : after.table.Sound
  announces : after.Announces

end Host

namespace LiveHost

open Host

variable {σ : Type} (env : Environment σ) {live after : LiveHost σ}

theorem handleKept_eq_ok {address : Address} {datagram : Bytes}
    (h : live.handleKept env address datagram = .ok after) : after.host = live.host ∨
      ∃ header content now, Header.decode datagram = .ok header ∧
        live.host.checkedContent header datagram = some content ∧
        live.host.handleContent address header datagram.length content now = .ok after.host := by
  unfold handleKept at h
  split at h
  · cases h
    exact .inl rfl
  · rename_i header hdecode
    split at h
    · cases h
      exact .inl rfl
    · rename_i content hchecked
      dsimp only [bind, Except.bind] at h
      rw [now_host] at h
      cases hhandle : live.host.handleContent address header datagram.length content
        (live.now env).1 with
      | error fault =>
        rw [hhandle] at h
        cases h
      | ok host =>
        rw [hhandle] at h
        cases h
        exact .inr ⟨header, content, _, hdecode, hchecked, hhandle⟩

/-- A datagram is dropped, or its content is handled as the interceptor lets it through. -/
theorem handleDatagram_eq_ok {address : Address} {datagram : Bytes}
    (h : live.handleDatagram env address datagram = .ok after) : after.host = live.host ∨
      ∃ kept header content now, (env.onReceive address datagram live.world).1 = some kept ∧
        Header.decode kept = .ok header ∧ live.host.checkedContent header kept = some content ∧
        live.host.handleContent address header kept.length content now = .ok after.host := by
  unfold handleDatagram at h
  split at h
  · cases h
    exact .inl rfl
  · rename_i kept world hkept
    refine (handleKept_eq_ok env h).imp_right ?_
    rintro ⟨header, content, now, hrest⟩
    exact ⟨kept, header, content, now, by rw [hkept], hrest⟩

theorem handleDatagram_takes {address : Address} {datagram : Bytes}
    (h : live.handleDatagram env address datagram = .ok after) (hpending : live.host.pending = [])
    (hsound : live.host.table.Sound) : Takes live.host after.host := by
  rcases handleDatagram_eq_ok env h with hsame | ⟨_, _, _, _, -, -, -, hhandle⟩
  · rw [hsame]
    exact .of_announces (.nothing hpending)
  · exact handleContent_takes hhandle hpending hsound

inductive ReceptionEnds : Nat → LiveHost σ → LiveHost σ → Prop where
  | enough {live : LiveHost σ} : ReceptionEnds 0 live live
  | failed {count : Nat} {live : LiveHost σ} {failure : IoFailure} {world : σ}
      (hreceive : env.receive live.world = (.error failure, world)) :
      ReceptionEnds (count + 1) live ⟨live.host.pushEvent (.failed failure.cause), world⟩
  | idle {count : Nat} {live : LiveHost σ} {world : σ}
      (hreceive : env.receive live.world = (.ok none, world)) :
      ReceptionEnds (count + 1) live { live with world := world }
  /-- What has arrived brings an event. -/
  | reported {count : Nat} {live after : LiveHost σ} {datagram : Bytes} {address : Address}
      {world : σ} (hreceive : env.receive live.world = (.ok (some (datagram, address)), world))
      (hhandle : { live with world := world }.handleDatagram env address
        (datagram.take live.host.settings.mtu.upper.toNat) = .ok after)
      (hevent : after.host.pending ≠ []) : ReceptionEnds (count + 1) live after
  /-- It does not, and the next one is received. -/
  | passed {count : Nat} {live middle after : LiveHost σ} {datagram : Bytes} {address : Address}
      {world : σ} (hreceive : env.receive live.world = (.ok (some (datagram, address)), world))
      (hhandle : { live with world := world }.handleDatagram env address
        (datagram.take live.host.settings.mtu.upper.toNat) = .ok middle)
      (hquiet : middle.host.pending = []) (hrest : ReceptionEnds count middle after) :
      ReceptionEnds (count + 1) live after

theorem receptionEnds_of_receiveDatagrams {count : Nat}
    (h : live.receiveDatagrams env count = .ok after) : ReceptionEnds env count live after := by
  induction count generalizing live with
  | zero =>
    cases h
    exact .enough
  | succ count ih =>
    unfold receiveDatagrams at h
    split at h
    · rename_i failure world hreceive
      cases h
      exact .failed hreceive
    · rename_i world hreceive
      cases h
      exact .idle hreceive
    · rename_i datagram address world hreceive
      dsimp only [bind, Except.bind] at h
      generalize hhandled : LiveHost.handleDatagram env _ address _ = handled at h
      cases handled with
      | error fault => cases h
      | ok middle =>
        dsimp only at h
        split at h
        · rename_i hempty
          exact .passed hreceive hhandled (List.isEmpty_iff.mp hempty) (ih h)
        · rename_i hevent
          cases h
          exact .reported hreceive hhandled (mt List.isEmpty_iff.mpr hevent)

theorem receiveDatagrams_receives {count : Nat}
    (h : live.receiveDatagrams env count = .ok after) (hpending : live.host.pending = [])
    (hsound : live.host.table.Sound) : Receives live.host after.host := by
  have hnothing {live : LiveHost σ} (hpending : live.host.pending = [])
      (hsound : live.host.table.Sound) : Receives live.host live.host :=
    ⟨fun id _ _ _ ↦ (Passes.refl true live.host).moves id, hsound, .nothing hpending⟩
  have hmoves {live middle : LiveHost σ} (htakes : Takes live.host middle.host) (id : PeerId)
      (peer : Peer) (hpeer : live.host.peer? id = some peer) :
      Moves id live.host middle.host := by
    apply htakes.moves
    rw [hpeer]
    exact Option.some_ne_none peer
  replace h := receptionEnds_of_receiveDatagrams env h
  induction h with
  | enough => exact hnothing hpending hsound
  | @failed _ live failure =>
    have hfailed : Passes true live.host (live.host.pushEvent (.failed failure.cause)) :=
      passes_failed live.host failure.cause
    have hone : (live.host.pushEvent (.failed failure.cause)).pending =
        [.failed failure.cause] := by
      rw [pushEvent, hpending, List.nil_append]
    exact ⟨fun id _ _ _ ↦ hfailed.moves id, hsound, .failed hone⟩
  | idle => exact hnothing hpending hsound
  | reported _ hhandle =>
    have htakes := handleDatagram_takes env hhandle hpending hsound
    exact ⟨fun id peer hpeer _ ↦ hmoves htakes id peer hpeer, htakes.sound hsound,
      htakes.announces⟩
  | passed _ hhandle hquiet _ ih =>
    have htakes := handleDatagram_takes env hhandle hpending hsound
    have hrest := ih hquiet (htakes.sound hsound)
    refine ⟨fun id peer hpeer hstanding ↦ ?_, hrest.sound, hrest.announces⟩
    have hmove := hmoves htakes id peer hpeer
    apply hmove.trans
    -- Nothing is reported yet, so the connection has not ended.
    obtain ⟨next, hnext, -, hnextstanding, -⟩ := hmove.goesOn_of_pending hpeer hstanding hquiet
    exact hrest.moves id next hnext hnextstanding

/-- What receiving leaves to be reported, when there was nothing before. -/
theorem receiveIncoming_receives (h : live.receiveIncoming env = .ok after)
    (hpending : live.host.pending = []) (hsound : live.host.table.Sound) :
    Receives live.host after.host := receiveDatagrams_receives env h hpending hsound

end LiveHost

end ReliableDatagram
