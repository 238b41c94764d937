import ReliableDatagram.Proofs.Host.Isolation
import ReliableDatagram.Proofs.Host.Trails

/-!
# The order of the slots

In whatever order the application asks for things, whatever arrives and whatever the socket and
the clock do, the vacant slots of a host are exactly those that its table lists. Each connection
carries the number of its slot and is not over: one that ends leaves its slot before the
operation that ends it is done, whichever way it ends. A new connection gets the lowest vacant
slot.
-/

namespace ReliableDatagram

theorem Peer.handle_keepsSlot {peer after : Peer} {header : Header} {command : Command}
    {context : Context} {event : Option PeerEvent}
    (h : peer.handle header command context = .ok (event, after))
    (halive : after.state ≠ .disconnected) : peer.KeepsSlot after where
  id := by
    cases handle_reacts h with
    | ended _ _ hid => exact hid
    | same _ _ _ hterms => exact congrArg Terms.id hterms
    | confirmed _ _ _ _ _ _ hterms => exact congrArg Terms.id hterms
    | granted _ _ _ _ _ _ hterms => exact congrArg Terms.id hterms
    | limited _ _ _ hterms => exact congrArg Terms.id hterms
    | throttled _ _ hterms => exact congrArg Terms.id hterms
  leads := (handle_proceeds h).leads
  alive hafter := absurd hafter halive

namespace Host

variable {host middle after : Host} {id : PeerId} {peer next : Peer} {header : Header}
  {command : Command} {context : Context} {address : Address}

/-- The table lists its vacant slots, and the connections in the others carry the numbers of
their slots and are not over. -/
structure Orderly (host : Host) : Prop where
  exact : host.table.Exact
  named : ∀ id peer, host.peer? id = some peer → peer.id = id
  alive : ∀ id peer, host.peer? id = some peer → peer.state ≠ .disconnected

theorem orderly_create (capacity : Nat) (incoming outgoing : UInt32) (settings : Settings) :
    (create capacity incoming outgoing settings).Orderly where
  exact := SlotTable.exact_empty capacity settings
  named id peer hpeer := by
    rw [peer?_create] at hpeer
    cases hpeer
  alive id peer hpeer := by
    rw [peer?_create] at hpeer
    cases hpeer

/-- All connections were in their slots before and have aged there. -/
theorem Orderly.of_keepsSlot (h : host.Orderly) (hexact : after.table.Exact)
    (hslots : ∀ id next, after.peer? id = some next →
      ∃ peer, host.peer? id = some peer ∧ peer.KeepsSlot next) : after.Orderly where
  exact := hexact
  named id next hnext := by
    obtain ⟨peer, hpeer, hkeeps⟩ := hslots id next hnext
    exact hkeeps.id.trans (h.named id peer hpeer)
  alive id next hnext hover := by
    obtain ⟨peer, hpeer, hkeeps⟩ := hslots id next hnext
    exact h.alive id peer hpeer (hkeeps.alive hover)

theorem Orderly.of_table (h : host.Orderly) (htable : after.table = host.table) :
    after.Orderly :=
  h.of_keepsSlot (htable ▸ h.exact) fun id next hnext ↦
    ⟨next, by rwa [Host.peer?, htable] at hnext, .of_state rfl rfl⟩

/-! ## New connections -/

/-- A connection whose handshake is under way has been put into the lowest vacant slot. -/
structure Places (host : Host) (id : PeerId) (after : Host) : Prop where
  exact : after.table.Exact
  lowest : host.table.IsLowest id
  placed : ∃ peer, after.peer? id = some peer ∧ peer.id = id ∧ peer.state.isHandshaking = true
  others : ∀ other ≠ id, after.peer? other = host.peer? other
  pending : after.pending = host.pending

theorem places_of_allocate {fresh : Peer} {table : SlotTable} (h : host.table.Exact)
    (hallocate : host.table.allocate = some (id, fresh, table)) (hid : peer.id = fresh.id)
    (hstate : peer.state.isHandshaking = true) :
    Places host id { host with table := table.set id peer } := by
  obtain ⟨-, -, hfresh, hsame⟩ := h.sound.allocate hallocate
  obtain ⟨hexact, hlowest, rfl⟩ := h.allocate hallocate
  refine {
    exact := hexact.set hfresh
    lowest := hlowest
    placed := ⟨peer, ?_, hid, hstate⟩
    others := fun other hne ↦ ?_
    pending := rfl }
  · exact (SlotTable.get?_set hfresh id).trans (if_pos rfl)
  · exact (SlotTable.get?_set_of_ne table peer hne).trans (hsame other hne)

theorem accept_places {offer : Handshake}
    (h : host.accept address header command offer context = .ok (some (id, after)))
    (hexact : host.table.Exact) : Places host id after := by
  obtain ⟨-, slot, table, peer, hallocate, haccept, rfl⟩ := accept_eq_ok h
  obtain ⟨_, _, _, -, -, -, hgranted⟩ := Peer.accept_eq_ok haccept
  apply places_of_allocate hexact hallocate (congrArg Terms.id hgranted.terms)
  rw [hgranted.state]
  rfl

theorem Places.orderly (h : Places host id after) (horderly : host.Orderly) : after.Orderly := by
  obtain ⟨peer, hpeer, hid, hstate⟩ := h.placed
  refine ⟨h.exact, fun other found hfound ↦ ?_, fun other found hfound ↦ ?_⟩
  all_goals by_cases heq : other = id
  · subst heq
    cases hpeer.symm.trans hfound
    exact hid
  · exact horderly.named other found ((h.others other heq).symm.trans hfound)
  · subst heq
    cases hpeer.symm.trans hfound
    intro hover
    rw [hover] at hstate
    cases hstate
  · exact horderly.alive other found ((h.others other heq).symm.trans hfound)

/-! ## The commands of a datagram -/

/-- What commands for a connection do to it. It goes on in its slot or leaves it. If it comes to
stand, that is to be reported, and it is reported only of a connection whose handshake was under
way. -/
structure Follows (id : PeerId) (host after : Host) : Prop where
  exact : host.table.Exact → after.table.Exact
  slot : ∀ next, after.peer? id = some next → ∃ peer, host.peer? id = some peer ∧
    peer.KeepsSlot next ∧
    (next.state = .connected → peer.state = .connected ∨ .connected id ∈ after.pending)
  greets : ∀ other, .connected other ∈ after.pending → .connected other ∈ host.pending ∨
    other = id ∧ ∃ peer, host.peer? id = some peer ∧ peer.state.stage = 0
  keeps : ∀ event ∈ host.pending, event ∈ after.pending

theorem Follows.refl (id : PeerId) (host : Host) : Follows id host host where
  exact hexact := hexact
  slot next hnext := ⟨next, hnext, .of_state rfl rfl, .inl⟩
  greets _ hmem := .inl hmem
  keeps _ hmem := hmem

theorem Follows.trans (h : Follows id host middle) (hnext : Follows id middle after) :
    Follows id host after where
  exact hexact := hnext.exact (h.exact hexact)
  slot last hlast := by
    obtain ⟨next, hmiddle, hmore, hstands⟩ := hnext.slot last hlast
    obtain ⟨peer, hpeer, hkeeps, hstood⟩ := h.slot next hmiddle
    refine ⟨peer, hpeer, hkeeps.trans hmore, fun hconnected ↦ ?_⟩
    rcases hstands hconnected with hnextstate | hmem
    · exact (hstood hnextstate).imp_right (hnext.keeps _)
    · exact .inr hmem
  greets other hmem := by
    rcases hnext.greets other hmem with hmiddle | ⟨heq, next, hslot, hstage⟩
    · exact h.greets other hmiddle
    · obtain ⟨peer, hpeer, hkeeps, -⟩ := h.slot next hslot
      have hle := hkeeps.leads.stage_le
      exact .inr ⟨heq, peer, hpeer, by omega⟩
  keeps event hmem := hnext.keeps event (h.keeps event hmem)

/-- A connection that goes on in its slot, with what is to be reported of it. -/
theorem follows_setPeer (hpeer : host.peer? id = some peer) (hslot : peer.KeepsSlot next)
    (hafter : after.table = (host.setPeer id next).table)
    (hstands : next.state = .connected →
      peer.state = .connected ∨ .connected id ∈ after.pending)
    (hgreets : ∀ other, .connected other ∈ after.pending → .connected other ∈ host.pending ∨
      other = id ∧ peer.state.stage = 0)
    (hkeeps : ∀ event ∈ host.pending, event ∈ after.pending) : Follows id host after where
  exact hexact := hafter ▸ hexact.set hpeer
  slot last hlast := by
    rw [Host.peer?, hafter, ← Host.peer?, peer?_setPeer_self hpeer] at hlast
    cases hlast
    exact ⟨peer, hpeer, hslot, hstands⟩
  greets other hmem :=
    (hgreets other hmem).imp_right fun hfresh ↦ ⟨hfresh.1, peer, hpeer, hfresh.2⟩
  keeps := hkeeps

/-- A connection that is over has left its slot, and its end may be reported. -/
theorem follows_release (host : Host) (id : PeerId) (state : PeerState) :
    Follows id host ((host.release id).reportDeparture id state) where
  exact hexact := (reportDeparture_localRun (host.release id) id state).exact (hexact.release id)
  slot last hlast := by
    rw [Host.peer?, table_reportDeparture] at hlast
    cases (SlotTable.get?_release_self host.table id).symm.trans hlast
  greets _ hmem := .inl (((reportDeparture_localRun (host.release id) id state).mem_pending
    (by simp [Event.kind]) (by simp [Event.kind])).mp hmem)
  keeps event hmem := by
    rw [pending_reportDeparture]
    exact List.mem_append_left _ hmem

/-- What is done with the connection once it has handled a command. -/
theorem handleCommand_follows {goesOn : Bool}
    (h : host.handleCommand id header command context = .ok (goesOn, after)) :
    Follows id host after := by
  cases handleCommand_resolves h with
  | absent => exact .refl id host
  | @goesOn peer next hpeer hhandle halive =>
    refine follows_setPeer hpeer (Peer.handle_keepsSlot hhandle halive) rfl
      (fun hconnected ↦ .inl ?_) (fun _ hmem ↦ .inl hmem) fun _ hmem ↦ hmem
    by_contra hstate
    cases (Peer.handle_event hhandle).1.mpr ⟨hstate, hconnected⟩
  | connected hpeer hhandle =>
    have hconnected := Peer.handle_connected hhandle
    have hkeeps := Peer.handle_keepsSlot hhandle (by rw [hconnected]; decide)
    refine follows_setPeer hpeer hkeeps rfl (fun _ ↦ .inr (List.mem_append_right _ (by simp)))
      (fun other hmem ↦ ?_) fun event hmem ↦ List.mem_append_left _ hmem
    rcases List.mem_append.mp hmem with hmem | hmem
    · exact .inl hmem
    · cases List.mem_singleton.mp hmem
      exact .inr ⟨rfl, ((Peer.handle_proceeds hhandle).connected rfl).1⟩
  | @ends peer _ _ hpeer =>
    rw [release_setPeer hpeer]
    exact follows_release host id peer.state

theorem handleCommands_follows {count : Nat} {bytes : Bytes}
    (h : handleCommands header address context count (some id) bytes host = .ok after) :
    Follows id host after :=
  handleCommands_preserves (Follows id host)
    (fun hkept hhandle ↦ hkept.trans (handleCommand_follows hhandle)) h (.refl id host)

/-! ## Datagrams -/

/-- What is in a slot was there before and has come no less far since, or the slot was vacant. -/
def Precedes (host after : Host) : Prop := ∀ id next, after.peer? id = some next →
  host.peer? id = none ∨ ∃ peer, host.peer? id = some peer ∧ peer.state.LeadsTo next.state

theorem Precedes.of_leads (h : ∀ id next, after.peer? id = some next →
    ∃ peer, host.peer? id = some peer ∧ peer.state.LeadsTo next.state) : Precedes host after :=
  fun id next hnext ↦ .inr (h id next hnext)

/-- What a datagram does: a connection goes on in its slot or leaves it, and one may be put into a
slot that was vacant. One that comes to stand is to be reported, and one that is reported was
not there before, or its handshake was under way. -/
structure Hears (host after : Host) : Prop where
  orderly : after.Orderly
  precedes : Precedes host after
  connected : ∀ id next, after.peer? id = some next → next.state = .connected →
    (∃ peer, host.peer? id = some peer ∧ peer.state = .connected) ∨ .connected id ∈ after.pending
  greets : ∀ id, .connected id ∈ after.pending → .connected id ∈ host.pending ∨
    ∀ peer, host.peer? id = some peer → peer.state.stage = 0

theorem Hears.of_eq (h : host.Orderly) (htable : after.table = host.table)
    (hpending : after.pending = host.pending) : Hears host after where
  orderly := h.of_table htable
  precedes := .of_leads fun id next hnext ↦ by
    rw [Host.peer?, htable] at hnext
    exact ⟨next, hnext, .refl _⟩
  connected id next hnext hstate := by
    rw [Host.peer?, htable] at hnext
    exact .inl ⟨next, hnext, hstate⟩
  greets id hmem := .inl (hpending ▸ hmem)

/-- A connection has been put into a slot before its commands are handled. -/
theorem Places.hears (h : Places host id middle) (horderly : host.Orderly)
    (hfollows : Follows id middle after)
    (hothers : ∀ other ≠ id, after.peer? other = middle.peer? other) : Hears host after := by
  obtain ⟨opened, hopened, -, hhandshake⟩ := h.placed
  have hsame {other : PeerId} (hne : other ≠ id) : after.peer? other = host.peer? other :=
    (hothers other hne).trans (h.others other hne)
  refine {
    orderly := (h.orderly horderly).of_keepsSlot (hfollows.exact h.exact)
      fun other next hnext ↦ ?_
    precedes := fun other next hnext ↦ ?_
    connected := fun other next hnext hstate ↦ ?_
    greets := fun other hmem ↦ ?_ }
  · by_cases heq : other = id
    · subst heq
      obtain ⟨peer, hpeer, hkeeps, -⟩ := hfollows.slot next hnext
      exact ⟨peer, hpeer, hkeeps⟩
    · exact ⟨next, (hothers other heq).symm.trans hnext, .of_state rfl rfl⟩
  · by_cases heq : other = id
    · exact .inl (heq ▸ h.lowest.vacant)
    · exact .inr ⟨next, (hsame heq).symm.trans hnext, .refl _⟩
  · by_cases heq : other = id
    · subst heq
      obtain ⟨peer, hpeer, -, hstands⟩ := hfollows.slot next hnext
      cases hopened.symm.trans hpeer
      refine .inr ((hstands hstate).resolve_left fun hconnected ↦ ?_)
      rw [hconnected] at hhandshake
      cases hhandshake
    · exact .inl ⟨next, (hsame heq).symm.trans hnext, hstate⟩
  · rcases hfollows.greets other hmem with hmem | ⟨heq, -⟩
    · exact .inl (h.pending ▸ hmem)
    · right
      intro peer hpeer
      have hvacant : host.peer? other = none := heq ▸ h.lowest.vacant
      cases hvacant.symm.trans hpeer

/-- A datagram has been counted before its commands are handled. -/
theorem Follows.hears {counted : Peer} (h : Follows id (host.setPeer id counted) after)
    (horderly : host.Orderly) (hpeer : host.peer? id = some peer) (hid : counted.id = peer.id)
    (hstate : counted.state = peer.state)
    (hothers : ∀ other ≠ id, after.peer? other = (host.setPeer id counted).peer? other) :
    Hears host after := by
  have hslot : (host.setPeer id counted).peer? id = some counted := peer?_setPeer_self hpeer
  have hsame {other : PeerId} (hne : other ≠ id) : after.peer? other = host.peer? other := by
    rw [hothers other hne, peer?_setPeer_of_ne hpeer hne]
  have hown {next : Peer} (hnext : after.peer? id = some next) : peer.KeepsSlot next ∧
      (next.state = .connected → peer.state = .connected ∨ .connected id ∈ after.pending) := by
    obtain ⟨found, hfound, hkeeps, hstands⟩ := h.slot next hnext
    cases hslot.symm.trans hfound
    rw [← hstate]
    exact ⟨Peer.KeepsSlot.trans (.of_state hid hstate) hkeeps, hstands⟩
  refine {
    orderly := horderly.of_keepsSlot (h.exact (horderly.exact.set hpeer)) fun other next hnext ↦ ?_
    precedes := .of_leads fun other next hnext ↦ ?_
    connected := fun other next hnext hconnected ↦ ?_
    greets := fun other hmem ↦ ?_ }
  · by_cases heq : other = id
    · subst heq
      exact ⟨peer, hpeer, (hown hnext).1⟩
    · exact ⟨next, (hsame heq).symm.trans hnext, .of_state rfl rfl⟩
  · by_cases heq : other = id
    · subst heq
      exact ⟨peer, hpeer, (hown hnext).1.leads⟩
    · exact ⟨next, (hsame heq).symm.trans hnext, .refl _⟩
  · by_cases heq : other = id
    · subst heq
      exact ((hown hnext).2 hconnected).imp_left fun hstood ↦ ⟨peer, hpeer, hstood⟩
    · exact .inl ⟨next, (hsame heq).symm.trans hnext, hconnected⟩
  · rcases h.greets other hmem with hmem | ⟨heq, found, hfound, hstage⟩
    · exact .inl hmem
    · subst heq
      cases hslot.symm.trans hfound
      right
      intro other hother
      cases hpeer.symm.trans hother
      rwa [hstate] at hstage

theorem handleContent_hears {length : Nat} {content : Bytes} {now : Stamp}
    (h : host.handleContent address header length content now = .ok after)
    (horderly : host.Orderly) : Hears host after := by
  cases delivers_of_handleContent h horderly.exact.sound with
  | nothing => exact .of_eq horderly rfl rfl
  | opened _ _ hrest haccept =>
    exact (accept_places haccept horderly.exact).hears horderly (handleCommands_follows hrest)
      fun other hne ↦ handleCommands_others hrest hne
  | named _ hbelongs hrest =>
    have hfollows := handleCommands_follows hrest
    exact hfollows.hears horderly hbelongs.slot rfl rfl
      fun other hne ↦ handleCommands_others hrest hne

end Host

namespace LiveHost

open Host

variable {σ : Type} (env : Environment σ) {live after : LiveHost σ}

theorem handleDatagram_hears {address : Address} {datagram : Bytes}
    (h : live.handleDatagram env address datagram = .ok after) (horderly : live.host.Orderly) :
    Hears live.host after.host := by
  rcases handleDatagram_eq_ok env h with hsame | ⟨_, _, _, _, -, -, -, hhandle⟩
  · rw [hsame]
    exact .of_eq horderly rfl rfl
  · exact handleContent_hears hhandle horderly

end LiveHost

open Host

variable {σ : Type} {env : Environment σ}

/-! ## Runs -/

/-- All connections were in their slots before, none has come to stand there, and only the ends of
connections and failures may have come to be reported. -/
structure Host.KeepsUnconnected (host after : Host) : Prop where
  exact : host.table.Exact → after.table.Exact
  peers : ∀ id next, after.peer? id = some next →
    ∃ peer, host.peer? id = some peer ∧ peer.KeepsUnconnected next
  pending : ∀ event : Event, event.kind ≠ .disconnected → event.kind ≠ .failed →
    (event ∈ after.pending ↔ event ∈ host.pending)

theorem Host.LocalRun.keepsUnconnected {host after : Host} (h : host.LocalRun after) :
    host.KeepsUnconnected after where
  exact := h.exact
  peers id next hnext := by
    obtain ⟨peer, hpeer, hrun⟩ := h.peer? hnext
    exact ⟨peer, hpeer, hrun.keepsUnconnected⟩
  pending _ hdisconnected hfailed := h.mem_pending hdisconnected hfailed

theorem Host.KeepsUnconnected.orderly {host after : Host} (h : host.KeepsUnconnected after)
    (horderly : host.Orderly) : after.Orderly :=
  horderly.of_keepsSlot (h.exact horderly.exact) fun id next hnext ↦ by
    obtain ⟨peer, hpeer, hslot⟩ := h.peers id next hnext
    exact ⟨peer, hpeer, hslot.toKeepsSlot⟩

/-- The hosts that a trail leads through are orderly. -/
theorem Trail.orderly {past : List (Receipt σ)} {start host : Host}
    (h : Trail env start past host) (horderly : start.Orderly) :
    host.Orderly ∧ ∀ receipt ∈ past, receipt.before.host.Orderly := by
  induction h with
  | start => exact ⟨horderly, fun _ hmem ↦ absurd hmem List.not_mem_nil⟩
  | work _ hrun ih => exact ⟨hrun.keepsUnconnected.orderly ih.1, ih.2⟩
  | receive _ _ hhandle ih =>
    refine ⟨(LiveHost.handleDatagram_hears env hhandle ih.1).orderly, fun receipt hmem ↦ ?_⟩
    rcases List.mem_append.mp hmem with hmem | hmem
    · exact ih.2 receipt hmem
    · cases List.mem_singleton.mp hmem
      exact ih.1

/-- What the application makes of a peer that it reaches for keeps its slot and does not come to
stand, as it does when the application sends, receives or leaves. Shaking hands and forgetting a
connection is left to the host, which looks after the slot as well. -/
def Operation.Proper : Operation σ → Prop
  | .change _ alter => ∀ peer : Peer, peer.KeepsUnconnected (alter peer)
  | _ => True

namespace LiveHost

variable {live after : LiveHost σ} {answer : Answer} {operation : Operation σ} {id : PeerId}

theorem connect_places {address : Address} {channelCount : Nat} {challenge : UInt32}
    (h : live.connect env address channelCount challenge = .ok (.ok id, after))
    (hexact : live.host.table.Exact) : Places live.host id after.host := by
  obtain ⟨error, heq, -⟩ | ⟨opened, slot, table, _, _, peer, heq, hallocate, hconnect, hafter⟩ :=
    connect_eq_ok env h
  · cases heq
  · cases heq
    obtain ⟨_, _, -, -, hasked⟩ := Peer.connect_eq_ok hconnect
    rw [hafter]
    apply places_of_allocate hexact hallocate (congrArg Terms.id hasked.terms)
    rw [hasked.state]
    rfl

inductive Proceeds (env : Environment σ) (live : LiveHost σ) (operation : Operation σ)
    (answer : Answer) (after : LiveHost σ) : Prop where
  | keeps (hserves : ∀ timeout rounds, operation ≠ .service timeout rounds)
      (hanswer : answer.event? = none) (hkeeps : live.host.KeepsUnconnected after.host) :
      Proceeds env live operation answer after
  | places {id : PeerId} (hserves : ∀ timeout rounds, operation ≠ .service timeout rounds)
      (hanswer : answer.event? = none) (hplaces : Places live.host id after.host) :
      Proceeds env live operation answer after
  | serves {timeout : UInt32} {rounds : Nat} {last : Host}
      (hoperation : operation = .service timeout rounds)
      (hservice : live.service env timeout rounds = .ok (answer.event?, after))
      (htrail : Trail env live.host (live.serviceReceipts env timeout rounds) last)
      (hconcludes : last.Concludes answer.event? after.host) :
      Proceeds env live operation answer after

theorem proceeds_of_perform (h : live.perform env operation = .ok (answer, after))
    (hproper : operation.Proper) (hexact : live.host.table.Exact) :
    Proceeds env live operation answer after := by
  have hevent (hserves : ∀ timeout rounds, operation ≠ .service timeout rounds) :
      answer.event? = none := by
    cases performs_of_perform env h hexact.sound with
    | acts hanswer => exact hanswer
    | opens hanswer =>
      rw [hanswer]
      rfl
    | serves hoperation => exact absurd hoperation (hserves _ _)
  cases operation with
  | service timeout rounds =>
    have hservice := service_of_perform env h
    obtain ⟨last, htrail, hconcludes⟩ := service_trail env hservice
    exact .serves rfl hservice htrail hconcludes
  | connect address channelCount challenge =>
    obtain ⟨hanswer, hsame⟩ | ⟨id, hanswer, hconnect⟩ := connect_of_perform env h
    · refine .keeps nofun hanswer ?_
      rw [hsame]
      exact LocalRun.keepsUnconnected .refl
    · exact .places nofun (hevent nofun) (connect_places hconnect hexact)
  | change id alter =>
    refine .keeps nofun (hevent nofun) ?_
    obtain ⟨-, hok | rfl⟩ := settleHost_eq (Except.ok.inj h)
    · obtain ⟨peer, hpeer, heq⟩ := updatePeer_eq_ok hok
      rw [heq]
      refine ⟨fun hexact ↦ hexact.set hpeer, fun other next hnext ↦ ?_, fun _ _ _ ↦ Iff.rfl⟩
      rw [peer?_setPeer hpeer] at hnext
      split at hnext
      · rename_i hid
        cases hnext
        exact ⟨peer, hid ▸ hpeer, hproper peer⟩
      · exact ⟨next, hnext, .refl next⟩
    · exact LocalRun.keepsUnconnected .refl
  | _ =>
    exact .keeps nofun (hevent nofun) (perform_localRun env h trivial nofun).keepsUnconnected

theorem Proceeds.orderly (h : Proceeds env live operation answer after)
    (horderly : live.host.Orderly) : after.host.Orderly := by
  cases h with
  | keeps _ _ hkeeps => exact hkeeps.orderly horderly
  | places _ _ hplaces => exact hplaces.orderly horderly
  | serves _ _ htrail hconcludes => exact (htrail.orderly horderly).1.of_table hconcludes.table

end LiveHost

/-- The host as it was before a step of a run, and before each datagram that it handled then.
Only at these moments is a connection put into a slot. -/
def Turn.moments (env : Environment σ) (turn : Turn σ) : List Host :=
  turn.before.host :: (turn.receipts env).map (·.before.host)

namespace Run

variable {turns : List (Turn σ)} {live : LiveHost σ}

theorem orderly (h : Run env turns live) (hproper : ∀ turn ∈ turns, turn.operation.Proper) :
    live.host.Orderly ∧ ∀ host ∈ turns.flatMap (·.moments env), host.Orderly := by
  induction h with
  | start => exact ⟨orderly_create .., fun _ hmem ↦ absurd hmem List.not_mem_nil⟩
  | @turn turns live after operation answer hrun hperform ih =>
    obtain ⟨horderly, hpast⟩ := ih fun turn hturn ↦ hproper turn (List.mem_append_left _ hturn)
    have hproceeds := LiveHost.proceeds_of_perform hperform
      (hproper _ (List.mem_append_right _ (List.mem_singleton_self _))) horderly.exact
    refine ⟨hproceeds.orderly horderly, fun host hmem ↦ ?_⟩
    rw [List.flatMap_append, List.flatMap_singleton, List.mem_append] at hmem
    rcases hmem with hmem | hmem
    · exact hpast host hmem
    · rcases List.mem_cons.mp hmem with rfl | hmem
      · exact horderly
      · obtain ⟨receipt, hreceipt, rfl⟩ := List.mem_map.mp hmem
        cases hproceeds with
        | keeps hserves | places hserves =>
          rw [Turn.receipts_of_ne env hserves] at hreceipt
          cases hreceipt
        | serves hoperation _ htrail =>
          subst hoperation
          exact (htrail.orderly horderly).2 receipt hreceipt

/-- At every moment of a run the vacant slots are listed exactly and in ascending order, so that
what is not listed is occupied; every connection carries the number of its slot, none of them is
over, and none has the number that stands for no slot. A new connection gets the lowest vacant
slot, whether the other end asks for it or the application does. -/
theorem slots_in_order (h : Run env turns live)
    (hproper : ∀ turn ∈ turns, turn.operation.Proper) :
    (∀ host ∈ turns.flatMap (·.moments env) ++ [live.host],
      host.table.vacant = (List.range host.table.capacity).filter host.table.isVacant ∧
      host.table.size = host.table.occupied.length ∧
      host.table.capacity ≤ 65535 ∧ host.peer? unassignedPeer = none ∧
      (∀ id peer, host.peer? id = some peer → peer.id = id ∧ peer.state ≠ .disconnected) ∧
      ∀ address header command offer context id after,
        host.accept address header command offer context = .ok (some (id, after)) →
          host.table.IsLowest id ∧ after.peer? id ≠ none) ∧
    ∀ address channelCount challenge id after,
      live.connect env address channelCount challenge = .ok (.ok id, after) →
        live.host.table.IsLowest id ∧ after.host.peer? id ≠ none := by
  obtain ⟨horderly, hpast⟩ := h.orderly hproper
  have hplaced {host after : Host} {id : PeerId} (hplaces : Places host id after) :
      host.table.IsLowest id ∧ after.peer? id ≠ none := by
    obtain ⟨peer, hpeer, -⟩ := hplaces.placed
    refine ⟨hplaces.lowest, ?_⟩
    rw [hpeer]
    exact Option.some_ne_none peer
  constructor
  · intro host hmem
    have hhost : host.Orderly := by
      rcases List.mem_append.mp hmem with hmem | hmem
      · exact hpast host hmem
      · exact List.mem_singleton.mp hmem ▸ horderly
    exact ⟨hhost.exact.vacant, hhost.exact.size_eq, hhost.exact.capacity,
      hhost.exact.get?_unassigned,
      fun id peer hpeer ↦ ⟨hhost.named id peer hpeer, hhost.alive id peer hpeer⟩,
      fun _ _ _ _ _ _ _ haccept ↦ hplaced (accept_places haccept hhost.exact)⟩
  · intro address channelCount challenge id after hconnect
    exact hplaced (LiveHost.connect_places hconnect horderly.exact)

/-- The application begins a connection and another host asks for one. The application takes what
has arrived on the second connection, and forgets the first one. -/
def lodging : List (Operation Script) := [
  .connect ⟨"10.0.0.9", 9⟩ 1 7,
  .outside fun script ↦ { script with arriving := [(Reported.request, ⟨"10.0.0.8", 8⟩)] },
  .service 0 1,
  .change 1 fun peer ↦ (peer.receive 0).2,
  .resetPeer 0]

theorem proper_of_lodging {turns : List (Turn Script)} {live : LiveHost Script}
    (h : rehearse lodging = some (turns, live)) : ∀ turn ∈ turns, turn.operation.Proper := by
  refine LiveHost.forall_of_performAll? h fun operation hmem ↦ ?_
  simp only [lodging, List.mem_cons, List.not_mem_nil, or_false] at hmem
  obtain rfl | rfl | rfl | rfl | rfl := hmem
  · trivial
  · trivial
  · trivial
  · exact fun peer ↦ peer.receive_keepsUnconnected 0
  · trivial

/-- The slot that the first connection has left is the lowest vacant one, although the second
connection is still in the other slot, and so the next connection gets it. -/
theorem slots_in_order_lodging : ∃ turns live after, rehearse lodging = some (turns, live) ∧
    live.connect Script.environment ⟨"10.0.0.7", 7⟩ 1 8 = .ok (.ok 0, after) ∧
    live.host.peer? 1 ≠ none ∧
    live.host.table.vacant =
      (List.range live.host.table.capacity).filter live.host.table.isVacant ∧
    live.host.table.IsLowest 0 ∧ after.host.peer? 0 ≠ none := by
  have hreplay : ((rehearse lodging).any fun (_, live) ↦ (live.host.peer? 1).isSome &&
      (live.connect Script.environment ⟨"10.0.0.7", 7⟩ 1 8).toOption.any
        (·.1.toOption.any (· = 0))) := by
    decide +kernel
  obtain ⟨⟨turns, live⟩, hlive, hrest⟩ := (Option.any_eq_true _ _).mp hreplay
  obtain ⟨hsecond, hconnect⟩ := Bool.and_eq_true_iff.mp hrest
  obtain ⟨⟨result, after⟩, hconnected, hresult⟩ := exists_of_any_toOption hconnect
  obtain ⟨id, rfl, hzero⟩ := exists_of_any_toOption hresult
  cases of_decide_eq_true hzero
  obtain ⟨hmoments, hfresh⟩ := slots_in_order (run_of_rehearse hlive) (proper_of_lodging hlive)
  obtain ⟨hlowest, hplaced⟩ := hfresh _ _ _ _ _ hconnected
  exact ⟨turns, live, after, hlive, hconnected, Option.ne_none_iff_isSome.mpr hsecond,
    (hmoments live.host (List.mem_append_right _ (List.mem_singleton_self _))).1, hlowest,
    hplaced⟩

end Run

end ReliableDatagram
