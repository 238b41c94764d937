import ReliableDatagram.Proofs.Host.Local

/-!
# The elementary steps of a host

Each elementary step of a host has a kind, which says what the step means for the slots and for
the sharing of the bandwidth: which connection leaves its slot and how, and where the sharing is
asked for or done. Every operation is a sequence of such steps, so what holds of all steps of
the kinds that it takes holds of the operation.
-/

namespace ReliableDatagram

/-- How a connection leaves its slot. -/
inductive Manner where
  /-- It is over, and that is noted to be reported. -/
  | reported
  /-- It was over before, and is found to be when an event is looked for. -/
  | found
  /-- Its slot is freed without more ado. -/
  | dismissed
deriving DecidableEq, Repr

structure Departure where
  id : PeerId
  /-- The connection as it was last. -/
  peer : Peer
  manner : Manner

/-- What an elementary step of a host means for its slots and for the sharing of its bandwidth. -/
inductive StepKind where
  /-- Connections go on while nothing arrives. -/
  | internal
  | leaves (departure : Departure)
  | receives
  | opens
  /-- The application sets the bandwidth. -/
  | limits
  | shares
  | reports
  | alters

namespace StepKind

/-- Sending has connections go on, and those leave that are given up when overdue commands are
looked for. -/
def IsSending (check : Bool) : StepKind → Prop
  | internal => True
  | leaves departure => check = true ∧ departure.manner = .reported
  | _ => False

/-- Connections go on, and no connection that stands leaves but those that may be `freed`; they
are dismissed. -/
def DismissesOnly (freed : PeerId → Prop) : StepKind → Prop
  | internal => True
  | leaves departure => departure.manner = .dismissed ∧
      (departure.peer.state.isStanding = true → freed departure.id)
  | _ => False

/-- Connections go on, and those leave that are found to be over. -/
def FindsEnded (told : Prop) : StepKind → Prop
  | internal => True
  | leaves departure => departure.manner = .found ∧ told
  | _ => False

/-- Nothing arrives, and the application neither begins nor alters a connection. -/
def IsLocal : StepKind → Prop
  | internal | leaves _ | limits | shares => True
  | _ => False

variable {kind : StepKind} {freed released : PeerId → Prop}

theorem IsSending.isLocal {check : Bool} (h : kind.IsSending check) : kind.IsLocal := by
  cases kind with
  | internal | leaves => trivial
  | _ => cases h

theorem IsSending.dismissesOnly (h : kind.IsSending false) : kind.DismissesOnly freed := by
  cases kind with
  | internal => trivial
  | leaves => cases h.1
  | _ => cases h

theorem DismissesOnly.isLocal (h : kind.DismissesOnly freed) : kind.IsLocal := by
  cases kind with
  | internal | leaves => trivial
  | _ => cases h

theorem DismissesOnly.mono (h : kind.DismissesOnly freed) (hfreed : ∀ id, freed id → released id) :
    kind.DismissesOnly released := by
  cases kind with
  | internal => trivial
  | leaves departure => exact ⟨h.1, fun hstanding ↦ hfreed _ (h.2 hstanding)⟩
  | _ => cases h

theorem FindsEnded.isLocal {told : Prop} (h : kind.FindsEnded told) : kind.IsLocal := by
  cases kind with
  | internal | leaves => trivial
  | _ => cases h

end StepKind

namespace Host

variable {host middle after : Host} {id : PeerId} {peer next : Peer} {kind : StepKind}

inductive Step (host : Host) : StepKind → Host → Prop where
  | advance {id : PeerId} {peer next : Peer} (hpeer : host.peer? id = some peer)
      (hnext : peer.LocalRun next) : Step host .internal (host.setPeer id next)
  | sweep {slots : List (Option Peer)}
      (hslots : SlotTable.Slotwise Peer.LocalRun host.table.slots.toList slots) :
      Step host .internal { host with table := { host.table with slots := slots.toArray } }
  | fail (cause : IoCause) : Step host .internal (host.pushEvent (.failed cause))
  /-- Something is noted that concerns neither the slots nor the events nor the sharing. -/
  | note {after : Host} (htable : after.table = host.table)
      (hpending : after.pending = host.pending) (hallocator : after.allocator = host.allocator) :
      Step host .internal after
  /-- A connection is over, and that is to be reported. -/
  | ends {id : PeerId} {peer : Peer} (hpeer : host.peer? id = some peer) :
      Step host (.leaves ⟨id, peer, .reported⟩)
        ((host.release id).reportDeparture id peer.state)
  | finds {id : PeerId} {peer : Peer} (hpeer : host.peer? id = some peer)
      (hstate : peer.state = .zombie) :
      Step host (.leaves ⟨id, peer, .found⟩) (host.release id).requestRecalculation
  | dismisses {id : PeerId} {peer : Peer} (hpeer : host.peer? id = some peer) :
      Step host (.leaves ⟨id, peer, .dismissed⟩) (host.release id)
  | receives {id : PeerId} {peer next : Peer} (hpeer : host.peer? id = some peer)
      (hnext : peer.Continues next) : Step host .receives (host.setPeer id next)
  /-- A connection has come to stand, and that is to be reported. -/
  | connects {id : PeerId} {peer next : Peer} (hpeer : host.peer? id = some peer)
      (hnext : peer.Continues next) :
      Step host .receives ((host.setPeer id next).requestRecalculation.pushEvent (.connected id))
  | opens {id : PeerId} {after : Host} (hvacant : host.peer? id = none)
      (hothers : ∀ other ≠ id, after.peer? other = host.peer? other)
      (hpending : after.pending = host.pending) (hallocator : after.allocator = host.allocator) :
      Step host .opens after
  | limits (incoming outgoing : UInt32) : Step host .limits (host.limitBandwidth incoming outgoing)
  | shares (now : Stamp) : Step host .shares (host.allocateBandwidth now)
  | reports {event : Event} {after : Host} (hpop : host.popEvent = (some event, after)) :
      Step host .reports after
  | alters {id : PeerId} {peer : Peer} (hpeer : host.peer? id = some peer) (next : Peer) :
      Step host .alters (host.setPeer id next)

/-- A host has gone on from one state to the other by steps that are `allowed`. -/
abbrev Steps (allowed : StepKind → Prop) (host after : Host) : Prop :=
  Relation.ReflTransGen (fun host after ↦ ∃ kind, allowed kind ∧ host.Step kind after) host after

section

variable {allowed permitted : StepKind → Prop}

theorem Step.steps (h : host.Step kind after) (hkind : allowed kind) :
    Steps allowed host after := .single ⟨kind, hkind, h⟩

theorem Steps.mono (h : Steps allowed host after)
    (hallowed : ∀ kind, allowed kind → permitted kind) : Steps permitted host after :=
  Relation.ReflTransGen.mono
    (fun _ _ ⟨kind, hkind, hdone⟩ ↦ ⟨kind, hallowed kind hkind, hdone⟩) _ _ h

theorem Steps.trans (h : Steps allowed host middle) (hnext : Steps allowed middle after) :
    Steps allowed host after := Relation.ReflTransGen.trans h hnext

/-! ## What becomes of a connection -/

theorem continues_setPeer {slot : PeerId} {old : Peer} (hpeer : host.peer? id = some peer)
    (hold : host.peer? slot = some old) (hnext : old.Continues next) :
    ∃ last, (host.setPeer slot next).peer? id = some last ∧ peer.Continues last := by
  by_cases heq : id = slot
  · subst heq
    cases hold.symm.trans hpeer
    exact ⟨next, peer?_setPeer_self hold, hnext⟩
  · exact ⟨peer, (peer?_setPeer_of_ne hold heq).trans hpeer, .refl⟩

theorem continues_of_slotwise {slots : List (Option Peer)} (hpeer : host.peer? id = some peer)
    (hslots : SlotTable.Slotwise Peer.LocalRun host.table.slots.toList slots)
    (htable : after.table = { host.table with slots := slots.toArray }) :
    ∃ last, after.peer? id = some last ∧ peer.Continues last := by
  have hslot := hslots.get? id
  rw [← htable, show host.table.get? id = some peer from hpeer] at hslot
  unfold Host.peer?
  generalize after.table.get? id = slot at hslot ⊢
  cases hslot with
  | some hrun => exact ⟨_, rfl, hrun.stays.continues⟩

theorem continues_or_eq_of_release {slot : PeerId} {old : Peer} (hpeer : host.peer? id = some peer)
    (hold : host.peer? slot = some old) (htable : after.table = (host.release slot).table) :
    (∃ last, after.peer? id = some last ∧ peer.Continues last) ∨ slot = id ∧ old = peer := by
  by_cases heq : id = slot
  · subst heq
    exact .inr ⟨rfl, Option.some.inj (hold.symm.trans hpeer)⟩
  · refine .inl ⟨peer, ?_, .refl⟩
    rw [Host.peer?, htable]
    exact (peer?_release_of_ne host heq).trans hpeer

/-- A connection that nobody alters goes on in its slot, unless it is the one that leaves. -/
theorem Step.continues (h : host.Step kind after) (halters : kind ≠ .alters)
    (hpeer : host.peer? id = some peer) :
    (∃ next, after.peer? id = some next ∧ peer.Continues next) ∨
      ∃ manner, kind = .leaves ⟨id, peer, manner⟩ := by
  have hstays (htable : after.table = host.table) :
      ∃ next, after.peer? id = some next ∧ peer.Continues next :=
    ⟨peer, by rwa [Host.peer?, htable], .refl⟩
  have hleaves {slot : PeerId} {old : Peer} {manner : Manner} (hold : host.peer? slot = some old)
      (htable : after.table = (host.release slot).table) :
      (∃ next, after.peer? id = some next ∧ peer.Continues next) ∨
        ∃ last, StepKind.leaves ⟨slot, old, manner⟩ = .leaves ⟨id, peer, last⟩ := by
    obtain hnext | ⟨rfl, rfl⟩ := continues_or_eq_of_release hpeer hold htable
    · exact .inl hnext
    · exact .inr ⟨manner, rfl⟩
  cases h with
  | advance hold hnext => exact .inl (continues_setPeer hpeer hold hnext.stays.continues)
  | sweep hslots => exact .inl (continues_of_slotwise hpeer hslots rfl)
  | fail | limits => exact .inl (hstays rfl)
  | note htable => exact .inl (hstays htable)
  | ends hold => exact hleaves hold (table_reportDeparture ..)
  | finds hold | dismisses hold => exact hleaves hold rfl
  | receives hold hnext | connects hold hnext => exact .inl (continues_setPeer hpeer hold hnext)
  | opens hvacant hothers =>
    refine .inl ⟨peer, (hothers id ?_).trans hpeer, .refl⟩
    rintro rfl
    cases hvacant.symm.trans hpeer
  | shares now =>
    unfold allocateBandwidth
    split
    · obtain ⟨slots, hslots, htable⟩ := host.allocator.run_slotwise (host.context now)
        host.settings.throttleScale host.table
      exact .inl (continues_of_slotwise hpeer hslots htable)
    · exact .inl ⟨peer, hpeer, .refl⟩
  | reports hpop => exact .inl (hstays (by rw [(popEvent_eq_some hpop).2]))
  | alters => exact absurd rfl halters

/-- So it goes on in its slot over any number of steps, unless it leaves in one of them. -/
theorem Steps.continues (h : Steps allowed host after) (halters : ¬ allowed .alters)
    (hpeer : host.peer? id = some peer) :
    (∃ next, after.peer? id = some next ∧ peer.Continues next) ∨
      ∃ last manner, peer.Continues last ∧ allowed (.leaves ⟨id, last, manner⟩) := by
  induction h with
  | refl => exact .inl ⟨peer, hpeer, .refl⟩
  | tail _ hstep ih =>
    obtain ⟨kind, hkind, hdone⟩ := hstep
    obtain ⟨next, hnext, hcontinues⟩ | hleaves := ih
    · have hother : kind ≠ .alters := fun heq ↦ halters (heq ▸ hkind)
      obtain ⟨last, hlast, hlater⟩ | ⟨manner, rfl⟩ := hdone.continues hother hnext
      · exact .inl ⟨last, hlast, hcontinues.trans hlater⟩
      · exact .inr ⟨next, manner, hcontinues, hkind⟩
    · exact .inr hleaves

theorem Step.localRun (h : host.Step kind after) (hlocal : kind.IsLocal) : host.LocalRun after := by
  cases h with
  | advance hpeer hnext => exact .single (.advance hpeer hnext)
  | sweep hslots => exact .single (.sweep hslots)
  | fail cause => exact .single (.report (.inr rfl))
  | note htable hpending => exact .single (.note htable hpending)
  | ends => exact .head (.release _) (reportDeparture_localRun ..)
  | finds => exact .tail (.single (.release _)) (.note rfl rfl)
  | dismisses => exact .single (.release _)
  | limits incoming outgoing => exact .single (.note rfl rfl)
  | shares now => exact host.allocateBandwidth_localRun now
  | receives | connects | opens | reports | alters => cases hlocal

theorem Steps.localRun (h : Steps allowed host after)
    (hlocal : ∀ kind, allowed kind → kind.IsLocal) : host.LocalRun after := by
  induction h with
  | refl => exact .refl
  | tail _ hstep ih =>
    obtain ⟨kind, hkind, hdone⟩ := hstep
    exact ih.trans (hdone.localRun (hlocal kind hkind))

end

/-- Dismissing connections does not ask for the sharing. -/
theorem Steps.allocator_eq {freed : PeerId → Prop}
    (h : Steps (StepKind.DismissesOnly freed) host after) : after.allocator = host.allocator := by
  induction h with
  | refl => rfl
  | tail _ hstep ih =>
    obtain ⟨kind, hkind, hdone⟩ := hstep
    refine Eq.trans ?_ ih
    cases hdone with
    | advance | sweep | fail | dismisses => rfl
    | note _ _ hallocator => exact hallocator
    | ends | finds => cases hkind.1
    | receives | connects | opens | limits | shares | reports | alters => cases hkind

/-! ## Requests that change one connection or all of them -/

/-- Freeing a slot dismisses the connection in it, if there is one. -/
theorem release_steps {freed : PeerId → Prop} (host : Host) (id : PeerId)
    (hfreed : ∀ peer, host.peer? id = some peer → peer.state.isStanding = true → freed id) :
    Steps (StepKind.DismissesOnly freed) host (host.release id) := by
  cases hpeer : host.peer? id with
  | some peer => exact (Step.dismisses hpeer).steps ⟨rfl, hfreed peer hpeer⟩
  | none =>
    have hsame : host.release id = host := by
      rw [release, SlotTable.release, show host.table.get? id = none from hpeer]
    rw [hsame]

theorem broadcast_steps (host : Host) (channel : UInt8) (packet : Packet) (check : Bool) :
    Steps (StepKind.IsSending check) host (host.broadcast channel packet).2 :=
  (Step.sweep (host.broadcast_slotwise channel packet)).steps trivial

theorem steps_of_send {channel : UInt8} {packet : Packet} {check : Bool}
    (h : host.send id channel packet = .ok after) :
    Steps (StepKind.IsSending check) host after := by
  obtain ⟨peer, next, hpeer, hsend, rfl⟩ := send_eq_ok h
  exact (Step.advance hpeer (.single (.send hsend))).steps trivial

theorem steps_of_updatePeer {change : Peer → Peer} {check : Bool}
    (h : host.updatePeer id change = .ok after)
    (hchange : ∀ peer : Peer, peer.LocalStep (change peer)) :
    Steps (StepKind.IsSending check) host after := by
  obtain ⟨peer, hpeer, rfl⟩ := updatePeer_eq_ok h
  exact (Step.advance hpeer (.single (hchange peer))).steps trivial

theorem steps_of_submit {request : Request} {check : Bool}
    (h : host.submit request = .ok after) : Steps (StepKind.IsSending check) host after := by
  unfold submit at h
  cases hpush : host.mailbox.push request with
  | error error =>
    rw [hpush] at h
    cases h
  | ok mailbox =>
    rw [hpush] at h
    cases h
    have hnote : host.Step .internal { host with mailbox := mailbox } := .note rfl rfl rfl
    exact hnote.steps trivial

/-! ## Events from the slots -/

/-- How looking for an event in the slots ends. -/
inductive Finds (after : Host) : Option Event → Prop where
  | nothing : Finds after none
  /-- The end of a connection is returned, and its slot has been freed. -/
  | ended {id : PeerId} (hvacant : after.peer? id = none) : Finds after (some (.disconnected id))
  /-- A packet is returned, and its connection stands. -/
  | received {id : PeerId} {peer : Peer} {channel : UInt8} {packet : Packet}
      (hpeer : after.peer? id = some peer) (hstate : peer.state = .connected) :
      Finds after (some (.received id channel packet))

/-- A connection that is found to be over is returned as the event, and the sharing is asked for. -/
theorem dispatchFrom_steps (indices : List Nat) (host : Host) :
    Steps (StepKind.FindsEnded ((host.dispatchFrom indices).1 ≠ none ∧
        (host.dispatchFrom indices).2.allocator.recalculate = true)) host
      (host.dispatchFrom indices).2 ∧
      Finds (host.dispatchFrom indices).2 (host.dispatchFrom indices).1 := by
  have hadvance {host : Host} {id : PeerId} {peer next : Peer}
      {found : Option (UInt8 × Packet)} (hpeer : host.peer? id = some peer)
      (hreceive : peer.receiveAny = (found, next)) :
      Step host .internal (host.setPeer id next) := by
    have hrun : peer.LocalRun peer.receiveAny.2 := .single .receiveAny
    rw [hreceive] at hrun
    exact .advance hpeer hrun
  have hends := dispatchFrom_ends indices host
  generalize host.dispatchFrom indices = result at hends ⊢
  induction hends with
  | nothing => exact ⟨.refl, .nothing⟩
  | buried hpeer hstate =>
    refine ⟨?_, .ended (SlotTable.get?_release_self ..)⟩
    refine .head ⟨_, ?_, .finds hpeer hstate⟩ (.single ⟨.internal, trivial, .note rfl rfl rfl⟩)
    exact ⟨rfl, Option.some_ne_none _, rfl⟩
  | @delivered _ _ _ peer _ _ _ hpeer hstate hreceive =>
    have hconnected : peer.receiveAny.2.state = .connected := hstate
    rw [hreceive] at hconnected
    refine ⟨?_, .received (peer?_setPeer_self hpeer) hconnected⟩
    exact .head ⟨.internal, trivial, hadvance hpeer hreceive⟩
      (.single ⟨.internal, trivial, .note rfl rfl rfl⟩)
  | drained hpeer _ hreceive _ ih =>
    exact ⟨.head ⟨.internal, trivial, hadvance hpeer hreceive⟩ ih.1, ih.2⟩
  | passed _ _ ih => exact ih

theorem dispatchFrom_localRun (indices : List Nat) (host : Host) :
    host.LocalRun (host.dispatchFrom indices).2 ∧
      Finds (host.dispatchFrom indices).2 (host.dispatchFrom indices).1 :=
  (host.dispatchFrom_steps indices).imp_left (·.localRun fun _ ↦ StepKind.FindsEnded.isLocal)

end Host

namespace LiveHost

open Host

variable {σ : Type} (env : Environment σ) {live after : LiveHost σ} {id : PeerId}

/-! ## Sending -/

theorem transmit_steps (live : LiveHost σ) (address : Address) (datagram : Bytes)
    (check : Bool) : Steps (StepKind.IsSending check) live.host
      (live.transmit env address datagram).host := by
  unfold transmit
  split
  · exact .refl
  · split
    · exact .refl
    · exact (Step.fail _).steps trivial

theorem sendFrom_steps (now : Stamp) (check : Bool) (id : PeerId) (live : LiveHost σ) :
    Steps (StepKind.IsSending check) live.host (live.sendFrom env now check id).2.host := by
  have hadvance {peer next : Peer} {result : Except EncodeError Composition}
      (hpeer : live.host.peer? id = some peer) (hcompose : peer.compose now check = (result, next))
      (hgoes : result ≠ .ok .timedOut) :
      Steps (StepKind.IsSending check) live.host (live.host.setPeer id next) := by
    have hstays : (peer.compose now check).1 ≠ .ok .timedOut := by rwa [hcompose]
    have hdone : Steps (StepKind.IsSending check) live.host
        (live.host.setPeer id (peer.compose now check).2) :=
      (Step.advance hpeer (.single (.compose hstays))).steps trivial
    rwa [hcompose] at hdone
  have hends := live.sendFrom_ends env now check id
  generalize live.sendFrom env now check id = result at hends ⊢
  cases hends with
  | silent => exact .refl
  | kept hpeer hcompose hgoes => exact hadvance hpeer hcompose hgoes
  | @sent _ next address datagram hpeer hcompose =>
    exact (hadvance hpeer hcompose nofun).trans
      (transmit_steps env (live.mapHost (·.setPeer id next)) address datagram check)
  | @gaveUp peer _ hpeer hcompose =>
    rcases peer.compose_state now check with ⟨-, rfl⟩ | ⟨hgoes, -⟩
    · exact (Step.ends hpeer).steps ⟨rfl, rfl⟩
    · rw [hcompose] at hgoes
      exact absurd rfl hgoes

/-- Sending has connections go on, or ends them with a report if it looks for overdue commands. -/
theorem sendOutgoing_steps (check : Bool) (live : LiveHost σ) :
    Steps (StepKind.IsSending check) live.host (live.sendOutgoing env check).host :=
  sendOutgoing_induction env
    (fun live after ↦ Steps (StepKind.IsSending check) live.host after.host)
    (fun _ ↦ .refl) .trans (fun _ ↦ .refl) (fun now ↦ sendFrom_steps env now check) live

theorem sendOutgoing_localRun (check : Bool) (live : LiveHost σ) :
    live.host.LocalRun (live.sendOutgoing env check).host :=
  (live.sendOutgoing_steps env check).localRun fun _ ↦ StepKind.IsSending.isLocal

/-- Sharing out the bandwidth and sending what waits. -/
theorem opening_localRun (live : LiveHost σ) : live.host.LocalRun (live.opening env).host :=
  (live.host.allocateBandwidth_localRun (live.now env).1).trans
    (sendOutgoing_localRun env true
      ((live.now env).2.mapHost (·.allocateBandwidth (live.now env).1)))

/-! ## Leaving -/

/-- A connection that is told and freed at once either does not stand or has been left by its
other end. -/
theorem acknowledgingDisconnect_of_freed {peer last : Peer} (hfreed : peer.disconnect.1 = true)
    (hlast : peer.disconnect.2.LocalRun last) (hstanding : last.state.isStanding = true) :
    peer.state = .acknowledgingDisconnect := by
  unfold Peer.disconnect at hfreed hlast
  split at hfreed
  · cases hfreed
  · rename_i hleaves
    rw [if_neg hleaves] at hlast
    split at hfreed
    · cases hfreed
    · rename_i hstate
      rw [if_neg hstate] at hlast
      obtain ⟨-, -, -, -, hconfirmed, -⟩ := peer.clearQueues.queueCommand_queues
        (.unnumbered .disconnect controlChannel Command.unsequencedFlag)
      have hqueued := (peer.clearQueues.queueCommand_enqueues
        (.unnumbered .disconnect controlChannel Command.unsequencedFlag)).state
      have hsame : last.state = peer.state := by
        rw [hlast.state_of_confirmed hconfirmed (by rwa [hqueued]), hqueued]
        rfl
      rw [hsame] at hstanding
      rw [Bool.not_eq_true', Bool.not_eq_false, Peer.canLeave] at hleaves
      generalize peer.state = state at hstanding hstate hleaves
      cases state with
      | acknowledgingDisconnect => rfl
      | connected => exact absurd rfl hstate
      | disconnecting | zombie => cases hleaves
      | disconnected | connecting | acknowledgingConnect => cases hstanding

/-- Leaving a connection dismisses it at most if its other end has left. -/
theorem steps_of_disconnect (h : live.disconnect env id = .ok after) :
    Steps (StepKind.DismissesOnly (Drops env · [.disconnect id] live)) live.host after.host := by
  have hleaves {peer next : Peer} {isFreed : Bool} (hpeer : live.host.peer? id = some peer)
      (hleft : peer.disconnect = (isFreed, next)) :
      Steps (StepKind.IsSending false) live.host (live.host.setPeer id next) := by
    have hrun : peer.LocalRun peer.disconnect.2 := .single .disconnect
    rw [hleft] at hrun
    exact (Step.advance hpeer hrun).steps trivial
  cases disconnectEnds_of_disconnect env h with
  | leaves hpeer hleft => exact (hleaves hpeer hleft).mono fun _ ↦ StepKind.IsSending.dismissesOnly
  | @freed peer next hpeer hleft =>
    have hfreed : peer.disconnect.1 = true := by rw [hleft]
    have hsent := sendOutgoing_steps env false (live.mapHost (·.setPeer id next))
    refine (((hleaves hpeer hleft).trans hsent).mono
      fun _ ↦ StepKind.IsSending.dismissesOnly).trans ?_
    apply release_steps
    intro last hlast hstanding
    obtain ⟨told, htold, hrun⟩ := (hsent.localRun fun _ ↦ StepKind.IsSending.isLocal).peer? hlast
    cases (peer?_setPeer_self hpeer).symm.trans htold
    have hanswers : peer.disconnect.2.LocalRun last := by rwa [hleft]
    exact ⟨[], [], peer, rfl, hpeer, acknowledgingDisconnect_of_freed hfreed hanswers hstanding⟩

theorem steps_of_disconnectNow (h : live.disconnectNow env id = .ok after) :
    Steps (StepKind.DismissesOnly (id = ·)) live.host after.host := by
  have hleaves {peer next : Peer} {isTold : Bool} (hpeer : live.host.peer? id = some peer)
      (hleft : peer.disconnectNow = (isTold, next)) :
      Steps (StepKind.IsSending false) live.host (live.mapHost (·.setPeer id next)).host := by
    have hrun : peer.LocalRun peer.disconnectNow.2 := .single .disconnectNow
    rw [hleft] at hrun
    exact (Step.advance hpeer hrun).steps trivial
  have hfreed (host : Host) : Steps (StepKind.DismissesOnly (id = ·)) host (host.release id) :=
    host.release_steps id fun _ _ _ ↦ rfl
  cases disconnectNowEnds_of_disconnectNow env h with
  | silent hpeer hleft =>
    exact ((hleaves hpeer hleft).mono fun _ ↦ StepKind.IsSending.dismissesOnly).trans (hfreed _)
  | told hpeer hleft =>
    have hsent := (hleaves hpeer hleft).trans (sendOutgoing_steps env false _)
    exact (hsent.mono fun _ ↦ StepKind.IsSending.dismissesOnly).trans (hfreed _)

/-! ## The mailbox -/

theorem applyRequest_steps (live : LiveHost σ) (request : Request) :
    Steps (StepKind.DismissesOnly (Drops env · [request] live)) live.host
      (live.applyRequest env request).host := by
  cases request with
  | send peer channel packet =>
    unfold applyRequest
    dsimp only
    split
    · rename_i hsend
      exact (steps_of_send hsend).mono fun _ ↦ StepKind.IsSending.dismissesOnly
    · exact .refl
  | broadcast channel packet =>
    exact (live.host.broadcast_steps channel packet false).mono
      fun _ ↦ StepKind.IsSending.dismissesOnly
  | disconnect peer =>
    unfold applyRequest
    dsimp only
    split
    · rename_i hdisconnect
      exact steps_of_disconnect env hdisconnect
    · exact .refl

theorem applyAll_steps (live : LiveHost σ) (requests : List Request) :
    Steps (StepKind.DismissesOnly (Drops env · requests live)) live.host
      (live.applyAll env requests).host := by
  induction requests generalizing live with
  | nil => exact .refl
  | cons request rest ih =>
    have hfirst : Steps (StepKind.DismissesOnly (Drops env · (request :: rest) live)) live.host
        (live.applyRequest env request).host := by
      refine (live.applyRequest_steps env request).mono fun _ h ↦ h.mono ?_
      rintro id ⟨earlier, later, peer, heq, hpeer, hstate⟩
      refine ⟨earlier, later ++ rest, peer, ?_, hpeer, hstate⟩
      rw [← List.cons_append, ← List.append_assoc, ← heq]
      rfl
    exact hfirst.trans ((ih _).mono fun _ h ↦ h.mono fun _ hdrops ↦ hdrops.cons env)

/-- Carrying out the requests in the mailbox dismisses no connection that stands but one whose
other end has left. -/
theorem applyRequests_steps (live : LiveHost σ) :
    Steps (StepKind.DismissesOnly (Drops env · live.host.mailbox.requests live.emptied)) live.host
      (live.applyRequests env).host := by
  have hemptied : live.host.Step .internal live.emptied.host := .note rfl rfl rfl
  exact (hemptied.steps trivial).trans
    (live.emptied.applyAll_steps env live.host.mailbox.requests)

theorem applyRequests_localRun (live : LiveHost σ) :
    live.host.LocalRun (live.applyRequests env).host :=
  (live.applyRequests_steps env).localRun fun _ ↦ StepKind.DismissesOnly.isLocal

/-! ## Operations -/

theorem settle_steps {allowed : StepKind → Prop} {result : Except TransportError (LiveHost σ)}
    {answer : Answer} (hresult : ∀ next, result = .ok next → Steps allowed live.host next.host)
    (heq : live.settle result = (answer, after)) : Steps allowed live.host after.host := by
  obtain ⟨-, hok | rfl⟩ := settle_eq heq
  · exact hresult after hok
  · exact .refl

theorem settleHost_steps {allowed : StepKind → Prop} {result : Except TransportError Host}
    {answer : Answer} (hresult : ∀ next, result = .ok next → Steps allowed live.host next)
    (heq : live.settleHost result = (answer, after)) : Steps allowed live.host after.host := by
  obtain ⟨-, hok | rfl⟩ := settleHost_eq heq
  · exact hresult after.host hok
  · exact .refl

end LiveHost

/-- The application begins no connection and leaves the peers to the host. -/
def Operation.Accepts {σ : Type} : Operation σ → Prop
  | .connect .. | .change .. => False
  | _ => True

namespace LiveHost

open Host

variable {σ : Type} (env : Environment σ) {live after : LiveHost σ}

/-- Whatever the application asks for, serving, its own connections and the bandwidth aside,
dismisses no connection that stands but one that it frees itself or whose other end has left. -/
theorem perform_steps {operation : Operation σ} {answer : Answer}
    (h : live.perform env operation = .ok (answer, after)) (haccepts : operation.Accepts)
    (hserves : ∀ timeout rounds, operation ≠ .service timeout rounds)
    (hasks : ∀ incoming outgoing, operation ≠ .limitBandwidth incoming outgoing) :
    Steps (StepKind.DismissesOnly fun id ↦ operation.Dismisses id ∨ live.Abandons env id operation)
      live.host after.host := by
  have hsends {next : Host} (hnext : Steps (StepKind.IsSending false) live.host next) :
      Steps
        (StepKind.DismissesOnly fun id ↦ operation.Dismisses id ∨ live.Abandons env id operation)
        live.host next := hnext.mono fun _ ↦ StepKind.IsSending.dismissesOnly
  cases operation with
  | connect => exact haccepts.elim
  | change => exact haccepts.elim
  | service timeout rounds => exact absurd rfl (hserves timeout rounds)
  | limitBandwidth incoming outgoing => exact absurd rfl (hasks incoming outgoing)
  | send id channel packet =>
    exact settleHost_steps (fun next hsend ↦ hsends (steps_of_send hsend)) (Except.ok.inj h)
  | broadcast channel packet =>
    cases h
    exact hsends (live.host.broadcast_steps channel packet false)
  | disconnect id =>
    apply settle_steps ?_ (Except.ok.inj h)
    intro next hleft
    exact (steps_of_disconnect env hleft).mono fun _ hkind ↦ hkind.mono fun _ ↦ .inr
  | disconnectNow id =>
    apply settle_steps ?_ (Except.ok.inj h)
    intro next hleft
    exact (steps_of_disconnectNow env hleft).mono fun _ hkind ↦ hkind.mono fun _ ↦ .inl
  | resetPeer id =>
    apply settleHost_steps ?_ (Except.ok.inj h)
    intro next hreset
    rw [resetPeer_eq_ok hreset]
    exact live.host.release_steps id fun _ _ _ ↦ .inl rfl
  | ping id =>
    apply settleHost_steps ?_ (Except.ok.inj h)
    intro next hping
    exact hsends (steps_of_updatePeer hping fun _ ↦ .ping)
  | configureThrottle id parameters =>
    apply settleHost_steps ?_ (Except.ok.inj h)
    intro next hconfigured
    exact hsends (steps_of_updatePeer hconfigured fun _ ↦ .configureThrottle parameters)
  | submit request =>
    exact settleHost_steps (fun next hsubmit ↦ hsends (steps_of_submit hsubmit))
      (Except.ok.inj h)
  | flush =>
    cases h
    have hrequests := live.applyRequests_steps env
    have hsent := sendOutgoing_steps env false (live.applyRequests env)
    refine (hrequests.trans (hsent.mono fun _ ↦ StepKind.IsSending.dismissesOnly)).mono
      fun _ hkind ↦ ?_
    exact hkind.mono fun _ ↦ .inr
  | outside change =>
    cases h
    exact .refl

/-- Whatever the application asks for but connections of its own and serving is done without
anything arriving. -/
theorem perform_localRun {operation : Operation σ} {answer : Answer}
    (h : live.perform env operation = .ok (answer, after)) (haccepts : operation.Accepts)
    (hserves : ∀ timeout rounds, operation ≠ .service timeout rounds) :
    live.host.LocalRun after.host := by
  by_cases hasks : ∃ incoming outgoing, operation = .limitBandwidth incoming outgoing
  · obtain ⟨incoming, outgoing, rfl⟩ := hasks
    cases h
    exact (Step.limits incoming outgoing).localRun trivial
  · have hsteps := perform_steps env h haccepts hserves fun incoming outgoing heq ↦
      hasks ⟨incoming, outgoing, heq⟩
    exact hsteps.localRun fun _ ↦ StepKind.DismissesOnly.isLocal

end LiveHost

end ReliableDatagram
