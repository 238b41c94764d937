import ReliableDatagram.Proofs.Host.Departures
import ReliableDatagram.Proofs.Peer.Bounds

/-!
# Isolation of connections

Whatever its bytes are, a datagram concerns one slot at most. It can change the slot that its
header names if it belongs to the connection there and its checksum is in order, and otherwise
it changes nothing at all. A datagram that names no slot can only open a connection in a slot
that was vacant. Handling a datagram comes to an end without a fault if the settings of the
host and of its connections are in order.
-/

namespace ReliableDatagram

namespace Host

variable {host after : Host} {id : PeerId} {header : Header} {command : Command}
  {context : Context} {address : Address} {datagram content : Bytes}

/-! ## The commands of a datagram -/

/-- A command touches no slot but that of its connection. -/
theorem handleCommand_others {goesOn : Bool} {other : PeerId}
    (h : host.handleCommand id header command context = .ok (goesOn, after)) (hne : other ≠ id) :
    after.peer? other = host.peer? other := by
  cases handleCommand_outcome h with
  | absent => rfl
  | goesOn hhost => rw [peer?_setPeer_of_ne hhost hne]
  | connected hhost => exact peer?_setPeer_of_ne hhost hne
  | ends hhost =>
    rw [release_setPeer hhost, peer?, table_reportDeparture]
    exact peer?_release_of_ne host hne

/-- What every command of a datagram for a connection preserves, all of them do. -/
theorem handleCommands_preserves (kept : Host → Prop) {count : Nat} {bytes : Bytes}
    (hstep : ∀ {host after : Host} {command : Command} {goesOn : Bool}, kept host →
      host.handleCommand id header command context = .ok (goesOn, after) → kept after)
    (h : handleCommands header address context count (some id) bytes host = .ok after)
    (hhost : kept host) : kept after := by
  induction count generalizing bytes host with
  | zero =>
    cases h
    exact hhost
  | succ count ih =>
    unfold handleCommands at h
    split at h
    · cases h
      exact hhost
    · split at h
      · cases h
        exact hhost
      · rename_i command rest _
        dsimp only at h
        cases hhandle : host.handleCommand id header command context with
        | error fault =>
          rw [hhandle] at h
          cases h
        | ok result =>
          obtain ⟨goesOn, middle⟩ := result
          rw [hhandle] at h
          have hmiddle := hstep hhost hhandle
          cases goesOn with
          | false =>
            cases h
            exact hmiddle
          | true => exact ih h hmiddle

/-- The commands for a connection touch no other slot. -/
theorem handleCommands_others {count : Nat} {bytes : Bytes} {other : PeerId}
    (h : handleCommands header address context count (some id) bytes host = .ok after)
    (hne : other ≠ id) : after.peer? other = host.peer? other :=
  handleCommands_preserves (fun after ↦ after.peer? other = host.peer? other)
    (fun hkept hhandle ↦ (handleCommand_others hhandle hne).trans hkept) h rfl

/-! ## Settings in order -/

/-- The settings of all connections, those to come included, are in order. -/
structure Configured (host : Host) : Prop where
  fresh : host.table.settings.Sound
  peers : ∀ id peer, host.peer? id = some peer → peer.settings.Sound

theorem peer?_create (capacity : Nat) (incoming outgoing : UInt32) (settings : Settings)
    (id : PeerId) : (create capacity incoming outgoing settings).peer? id = none := by
  simp only [peer?, create, SlotTable.get?, SlotTable.empty, Array.getElem?_replicate]
  split <;> rfl

theorem Configured.create {settings : Settings} (h : settings.Sound) (capacity : Nat)
    (incoming outgoing : UInt32) : (create capacity incoming outgoing settings).Configured where
  fresh := h
  peers id peer hpeer := by
    rw [peer?_create] at hpeer
    cases hpeer

theorem Configured.setPeer {peer next : Peer} (h : host.Configured)
    (hpeer : host.peer? id = some peer) (hsame : next.settings = peer.settings) :
    (host.setPeer id next).Configured where
  fresh := h.fresh
  peers other found hfound := by
    rw [peer?_setPeer hpeer] at hfound
    split at hfound
    · cases hfound
      rw [hsame]
      exact h.peers id peer hpeer
    · exact h.peers other found hfound

theorem Configured.release (h : host.Configured) (id : PeerId) : (host.release id).Configured where
  fresh := by
    rw [Host.release, SlotTable.settings_release]
    exact h.fresh
  peers other found hfound := by
    rw [peer?_release] at hfound
    split at hfound
    · cases hfound
    · exact h.peers other found hfound

theorem Configured.of_table (h : host.Configured) (htable : after.table = host.table) :
    after.Configured where
  fresh := htable ▸ h.fresh
  peers id peer hpeer := by
    rw [peer?, htable] at hpeer
    exact h.peers id peer hpeer

theorem Configured.opens {offer : Handshake} (h : host.Configured)
    (hopens : Opens host address header command offer context id after) : after.Configured where
  fresh := hopens.settings ▸ h.fresh
  peers other found hfound := by
    by_cases heq : other = id
    · obtain ⟨slot, peer, hslot, haccept, hpeer⟩ := hopens.opened
      rw [heq, hpeer] at hfound
      cases hfound
      rw [Peer.accept_settings haccept, hslot]
      exact h.fresh
    · rw [hopens.others other heq] at hfound
      exact h.peers other found hfound

/-- A command is handled without a fault, and the settings stay in order. -/
theorem Configured.exists_handleCommand (h : host.Configured) (id : PeerId) (header : Header)
    (command : Command) (context : Context) : ∃ goesOn after,
      host.handleCommand id header command context = .ok (goesOn, after) ∧ after.Configured := by
  unfold handleCommand
  cases hpeer : host.peer? id with
  | none => exact ⟨false, host, rfl, h⟩
  | some peer =>
    obtain ⟨event, next, hhandle⟩ :=
      Peer.exists_handle (h.peers id peer hpeer) header command context
    have hnext : (host.setPeer id next).Configured := h.setPeer hpeer (Peer.handle_settings hhandle)
    have hends : (((host.setPeer id next).release id).reportDeparture id peer.state).Configured :=
      (hnext.release id).of_table (table_reportDeparture ..)
    dsimp only
    rw [hhandle]
    dsimp only [bind, Except.bind]
    split
    · exact ⟨true, _, rfl, hnext.of_table rfl⟩
    · exact ⟨false, _, rfl, hends⟩
    · split
      · exact ⟨false, _, rfl, hends⟩
      · exact ⟨true, _, rfl, hnext⟩

theorem Configured.exists_handleCommands (h : host.Configured) (header : Header)
    (address : Address) (context : Context) (count : Nat) (id : PeerId) (bytes : Bytes) :
    ∃ after, handleCommands header address context count (some id) bytes host = .ok after := by
  induction count generalizing host bytes with
  | zero => exact ⟨host, rfl⟩
  | succ count ih =>
    unfold handleCommands
    split
    · exact ⟨host, rfl⟩
    · split
      · exact ⟨host, rfl⟩
      · rename_i command rest _
        obtain ⟨goesOn, middle, hhandle, hmiddle⟩ :=
          h.exists_handleCommand id header command context
        dsimp only
        rw [hhandle]
        cases goesOn with
        | false => exact ⟨middle, rfl⟩
        | true => exact ih hmiddle rest

theorem Configured.exists_accept (h : host.Configured) (address : Address) (header : Header)
    (command : Command) (offer : Handshake) (context : Context) :
    ∃ result, host.accept address header command offer context = .ok result := by
  unfold accept
  split
  · exact ⟨none, rfl⟩
  · split
    · exact ⟨none, rfl⟩
    · split
      · exact ⟨none, rfl⟩
      · rename_i fresh _ hallocate
        obtain ⟨hslot, -⟩ := SlotTable.settings_of_allocate hallocate
        obtain ⟨peer, haccept⟩ := Peer.exists_accept (hslot ▸ h.fresh : fresh.settings.Sound)
          address header command offer context
        rw [haccept]
        exact ⟨_, rfl⟩

/-- The commands of a datagram without a connection are handled without a fault. -/
theorem Configured.exists_handleCommands_none (h : host.Configured) (hsound : host.table.Sound)
    (header : Header) (address : Address) (context : Context) (count : Nat) (bytes : Bytes) :
    ∃ after, handleCommands header address context count none bytes host = .ok after := by
  cases count with
  | zero => exact ⟨host, rfl⟩
  | succ count =>
    unfold handleCommands
    split
    · exact ⟨host, rfl⟩
    · split
      · exact ⟨host, rfl⟩
      · rename_i command rest _
        dsimp only
        split
        · rename_i offer _
          obtain ⟨result, haccept⟩ := h.exists_accept address header command offer context
          rw [haccept]
          cases result with
          | none => exact ⟨host, rfl⟩
          | some opened =>
            obtain ⟨id, middle⟩ := opened
            have hmiddle := h.opens (accept_opens haccept hsound)
            exact hmiddle.exists_handleCommands header address context count id rest
        · exact ⟨host, rfl⟩

theorem Configured.exists_handleContent (h : host.Configured) (hsound : host.table.Sound)
    (address : Address) (header : Header) (length : Nat) (content : Bytes) (now : Stamp) :
    ∃ after, host.handleContent address header length content now = .ok after := by
  unfold handleContent
  dsimp only
  split
  · exact h.exists_handleCommands_none hsound ..
  · split
    · exact ⟨host, rfl⟩
    · rename_i id middle hmatch
      obtain ⟨rfl, peer, known, hbelongs, rfl⟩ := matchPeer_eq_some hmatch
      have hcounted : (host.setPeer header.peer
          ((peer.relocate address).recordReceived length)).Configured := h.setPeer hbelongs.slot rfl
      exact hcounted.exists_handleCommands ..

/-! ## Datagrams -/

/-- The slot that a header names takes the datagram: it belongs to the connection there, and its
checksum is right if it has one and there if the host requires one. -/
structure Admits (host : Host) (address : Address) (header : Header) (datagram : Bytes) :
    Prop where
  belongs : ∃ peer known, host.Belongs address header peer known
  valid : header.hasChecksum = true →
    ∃ content, Checksum.strip Checksum.crc32 datagram = .ok content
  required : host.settings.checksums = true → header.hasChecksum = true

theorem checkedContent_eq_some (h : host.checkedContent header datagram = some content) :
    (header.hasChecksum = true → Checksum.strip Checksum.crc32 datagram = .ok content) ∧
      (host.settings.checksums = true → header.hasChecksum = true) := by
  unfold checkedContent at h
  split at h
  · rename_i hflagged
    split at h
    · rename_i hstrip
      cases h
      exact ⟨fun _ ↦ hstrip, fun _ ↦ hflagged⟩
    · cases h
  · rename_i hplain
    split at h
    · cases h
    · rename_i hfree
      exact ⟨fun hflagged ↦ absurd hflagged hplain, fun hrequired ↦ absurd hrequired hfree⟩

/-- What a datagram from an address can do to the slots of a host. -/
structure Isolates (address : Address) (datagram : Bytes) (host after : Host) : Prop where
  single : ∃ id, ∀ other ≠ id, after.peer? other = host.peer? other
  malformed : ∀ error, Header.decode datagram = .error error → after = host
  named : ∀ header, Header.decode datagram = .ok header → header.isUnassigned = false →
    (∀ other ≠ header.peer, after.peer? other = host.peer? other) ∧
      (¬ host.Admits address header datagram → after = host)
  unassigned : ∀ header, Header.decode datagram = .ok header → header.isUnassigned = true →
    (∀ id, host.peer? id ≠ none → after.peer? id = host.peer? id) ∧
      ∀ first second, host.peer? first = none → after.peer? first ≠ none →
        host.peer? second = none → after.peer? second ≠ none → first = second

theorem Isolates.refl (address : Address) (datagram : Bytes) (host : Host) :
    Isolates address datagram host host where
  single := ⟨0, fun _ _ ↦ rfl⟩
  malformed _ _ := rfl
  named _ _ _ := ⟨fun _ _ ↦ rfl, fun _ ↦ rfl⟩
  unassigned _ _ _ := ⟨fun _ _ ↦ rfl, fun _ _ hvacant hopened ↦ absurd hvacant hopened⟩

/-- A datagram that belongs to the connection that it names. -/
theorem Isolates.of_named (hdecode : Header.decode datagram = .ok header)
    (hnamed : header.isUnassigned = false) (hadmits : host.Admits address header datagram)
    (hothers : ∀ other ≠ header.peer, after.peer? other = host.peer? other) :
    Isolates address datagram host after where
  single := ⟨header.peer, hothers⟩
  malformed error herror := by
    rw [hdecode] at herror
    cases herror
  named other hother _ := by
    rw [hdecode] at hother
    cases hother
    exact ⟨hothers, fun hrefused ↦ absurd hadmits hrefused⟩
  unassigned other hother hunassigned := by
    rw [hdecode] at hother
    cases hother
    rw [hnamed] at hunassigned
    cases hunassigned

/-- A datagram that opens a connection. -/
theorem Isolates.of_unassigned (hdecode : Header.decode datagram = .ok header)
    (hunassigned : header.isUnassigned = true) (hvacant : host.peer? id = none)
    (hothers : ∀ other ≠ id, after.peer? other = host.peer? other) :
    Isolates address datagram host after where
  single := ⟨id, hothers⟩
  malformed error herror := by
    rw [hdecode] at herror
    cases herror
  named other hother hnamed := by
    rw [hdecode] at hother
    cases hother
    rw [hunassigned] at hnamed
    cases hnamed
  unassigned _ _ _ := by
    have hopened {slot : PeerId} (hbefore : host.peer? slot = none)
        (hafter : after.peer? slot ≠ none) : slot = id := by
      by_contra hne
      exact hafter ((hothers slot hne).trans hbefore)
    refine ⟨fun slot hslot ↦ hothers slot ?_, fun first second hfirst hfirstopen hsecond hopen ↦ ?_⟩
    · rintro rfl
      exact hslot hvacant
    · exact (hopened hfirst hfirstopen).trans (hopened hsecond hopen).symm

theorem handleContent_isolates {length : Nat} {now : Stamp}
    (h : host.handleContent address header length content now = .ok after)
    (hdecode : Header.decode datagram = .ok header)
    (hchecked : host.checkedContent header datagram = some content) (hsound : host.table.Sound) :
    Isolates address datagram host after := by
  cases delivers_of_handleContent h hsound with
  | nothing => exact .refl ..
  | opened hunassigned hopens hrest =>
    refine .of_unassigned hdecode hunassigned hopens.vacant fun other hne ↦ ?_
    exact (handleCommands_others hrest hne).trans (hopens.others other hne)
  | named hnamed hbelongs hrest =>
    obtain ⟨hvalid, hrequired⟩ := checkedContent_eq_some hchecked
    have hadmits : host.Admits address header datagram :=
      ⟨⟨_, _, hbelongs⟩, fun hflagged ↦ ⟨content, hvalid hflagged⟩, hrequired⟩
    refine .of_named hdecode hnamed hadmits fun other hne ↦ ?_
    rw [handleCommands_others hrest hne, peer?_setPeer_of_ne hbelongs.slot hne]

end Host

namespace LiveHost

open Host

variable {σ : Type} (env : Environment σ) {live after : LiveHost σ} {address : Address}
  {datagram : Bytes}

theorem exists_handleKept (hsettings : live.host.Configured) (hsound : live.host.table.Sound)
    (address : Address) (datagram : Bytes) :
    ∃ after, live.handleKept env address datagram = .ok after := by
  unfold handleKept
  split
  · exact ⟨live, rfl⟩
  · split
    · exact ⟨live, rfl⟩
    · rename_i header _ _ content _
      obtain ⟨host, hhandle⟩ := hsettings.exists_handleContent hsound address header
        datagram.length content (live.now env).1
      dsimp only [bind, Except.bind]
      rw [now_host, hhandle]
      exact ⟨_, rfl⟩

theorem handleKept_isolates (h : live.handleKept env address datagram = .ok after)
    (hsound : live.host.table.Sound) : Isolates address datagram live.host after.host := by
  rcases handleKept_eq_ok env h with hsame | ⟨header, content, now, hdecode, hchecked, hhandle⟩
  · rw [hsame]
    exact .refl ..
  · exact handleContent_isolates hhandle hdecode hchecked hsound

/-- A datagram that the interceptor keeps as it is can change one slot at most: the one that its
header names, if it takes the datagram, or else one that was vacant. There is no fault if the
settings are in order. -/
theorem handleDatagram_isolates
    (hkept : (env.onReceive address datagram live.world).1 = some datagram)
    (hsound : live.host.table.Sound) :
    (live.host.Configured → ∃ after, live.handleDatagram env address datagram = .ok after) ∧
      ∀ after, live.handleDatagram env address datagram = .ok after →
        Isolates address datagram live.host after.host := by
  unfold handleDatagram
  obtain ⟨world, hreceive⟩ :
      ∃ world, env.onReceive address datagram live.world = (some datagram, world) :=
    ⟨_, Prod.ext hkept rfl⟩
  rw [hreceive]
  let next : LiveHost σ := { live with world := world }
  constructor
  · intro hsettings
    have hnext : next.host.Configured := hsettings
    exact exists_handleKept env hnext hsound address datagram
  · intro after h
    have hnext : next.handleKept env address datagram = .ok after := h
    have hisolates : Isolates address datagram next.host after.host :=
      handleKept_isolates env hnext hsound
    exact hisolates

/-- A request for a connection that reaches a host without connections takes one slot only. -/
theorem handleDatagram_isolates_request :
    ∃ after, (⟨.create 2 0 0 {}, {}⟩ : LiveHost Script).handleDatagram Script.environment
        ⟨"10.0.0.9", 9⟩ Reported.request = .ok after ∧
      after.host.peer? 0 ≠ none ∧ ∀ id ≠ 0, after.host.peer? id = none := by
  let live : LiveHost Script := ⟨.create 2 0 0 {}, {}⟩
  have hvacant (id : PeerId) : live.host.peer? id = none := peer?_create 2 0 0 {} id
  obtain ⟨hreturns, hisolates⟩ := handleDatagram_isolates Script.environment
    (rfl : (Script.environment.onReceive ⟨"10.0.0.9", 9⟩ Reported.request live.world).1 = _)
    (SlotTable.sound_empty 2 {})
  have hsettings : Settings.Sound {} := ⟨by decide, by decide, by decide⟩
  obtain ⟨after, hafter⟩ := hreturns (.create hsettings 2 0 0)
  have hopened : after.host.peer? 0 ≠ none := by
    have hslot : (live.handleDatagram Script.environment ⟨"10.0.0.9", 9⟩ Reported.request).map
        (fun after ↦ (after.host.peer? 0).isSome) = .ok true := by
      decide +kernel
    rw [hafter] at hslot
    exact Option.isSome_iff_ne_none.mp (Except.ok.inj hslot)
  refine ⟨after, hafter, hopened, fun id hne ↦ ?_⟩
  by_contra hid
  have honly := ((hisolates after hafter).unassigned _ rfl rfl).2
  exact hne (honly id 0 (hvacant id) hid (hvacant 0) hopened)

end LiveHost

end ReliableDatagram
