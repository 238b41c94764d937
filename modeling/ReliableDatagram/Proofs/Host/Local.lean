import ReliableDatagram.Proofs.Host.Exactness
import ReliableDatagram.Proofs.Host.Runs

/-!
# What a host does while nothing arrives

Sending, sharing the bandwidth, delivering and what the application asks for are made of a few
elementary steps: a connection goes on in its slot, or all of them do, a slot is freed, the end
of a connection or a failure is noted to be reported. No step puts a connection into a slot, and
none finds that a connection stands. So what each of these steps preserves is preserved
until the next datagram arrives or the application begins a connection.
-/

namespace ReliableDatagram

namespace Host

variable {host middle after : Host} {id : PeerId} {peer next : Peer}

/-- An elementary step of a host that takes nothing from the network. -/
inductive LocalStep (host : Host) : Host → Prop where
  /-- A connection goes on in its slot. -/
  | advance {id : PeerId} {peer next : Peer} (hpeer : host.peer? id = some peer)
      (hnext : peer.LocalRun next) : LocalStep host (host.setPeer id next)
  /-- All connections go on in their slots. -/
  | sweep {slots : List (Option Peer)}
      (hslots : SlotTable.Slotwise Peer.LocalRun host.table.slots.toList slots) :
      LocalStep host { host with table := { host.table with slots := slots.toArray } }
  /-- A slot is freed. -/
  | release (id : PeerId) : LocalStep host (host.release id)
  /-- The end of a connection or a failure is to be reported. -/
  | report {event : Event} (hevent : event.kind = .disconnected ∨ event.kind = .failed) :
      LocalStep host (host.pushEvent event)
  /-- Something is noted that concerns neither the slots nor the events. -/
  | note {after : Host} (htable : after.table = host.table)
      (hpending : after.pending = host.pending) : LocalStep host after

/-- A host has gone on from one state to the other while nothing arrived. -/
abbrev LocalRun (host after : Host) : Prop := Relation.ReflTransGen LocalStep host after

/-! ## What it preserves -/

/-- Every connection was in its slot before. -/
theorem LocalStep.peer? (h : LocalStep host after) (hnext : after.peer? id = some next) :
    ∃ peer, host.peer? id = some peer ∧ peer.LocalRun next := by
  cases h with
  | @advance slot peer _ hpeer hrun =>
    rw [peer?_setPeer hpeer] at hnext
    split at hnext
    · rename_i heq
      cases hnext
      exact ⟨peer, heq ▸ hpeer, hrun⟩
    · exact ⟨next, hnext, .refl⟩
  | sweep hslots =>
    have hslot := hslots.get? id
    rw [show SlotTable.get? _ id = some next from hnext] at hslot
    generalize hold : host.table.get? id = old at hslot
    cases hslot with
    | some hrun => exact ⟨_, hold, hrun⟩
  | release slot =>
    rw [peer?_release] at hnext
    split at hnext
    · cases hnext
    · exact ⟨next, hnext, .refl⟩
  | report => exact ⟨next, hnext, .refl⟩
  | note htable =>
    rw [Host.peer?, htable] at hnext
    exact ⟨next, hnext, .refl⟩

theorem LocalRun.peer? (h : host.LocalRun after) (hnext : after.peer? id = some next) :
    ∃ peer, host.peer? id = some peer ∧ peer.LocalRun next := by
  induction h generalizing next with
  | refl => exact ⟨next, hnext, .refl⟩
  | tail _ hstep ih =>
    obtain ⟨middle, hmiddle, hrun⟩ := hstep.peer? hnext
    obtain ⟨peer, hpeer, hfirst⟩ := ih hmiddle
    exact ⟨peer, hpeer, hfirst.trans hrun⟩

theorem LocalStep.sound (h : LocalStep host after) (hsound : host.table.Sound) :
    after.table.Sound := by
  cases h with
  | advance hpeer => exact hsound.set hpeer
  | sweep hslots => exact hsound.slotwise hslots
  | release slot => exact hsound.release slot
  | report => exact hsound
  | note htable => exact htable ▸ hsound

theorem LocalRun.sound (h : host.LocalRun after) (hsound : host.table.Sound) :
    after.table.Sound := by
  induction h with
  | refl => exact hsound
  | tail _ hstep ih => exact hstep.sound ih

theorem LocalStep.exact (h : LocalStep host after) (hexact : host.table.Exact) :
    after.table.Exact := by
  cases h with
  | advance hpeer => exact hexact.set hpeer
  | sweep hslots => exact hexact.slotwise hslots
  | release slot => exact hexact.release slot
  | report => exact hexact
  | note htable => exact htable ▸ hexact

theorem LocalRun.exact (h : host.LocalRun after) (hexact : host.table.Exact) :
    after.table.Exact := by
  induction h with
  | refl => exact hexact
  | tail _ hstep ih => exact hstep.exact ih

/-- Nothing else comes to be reported than the ends of connections and failures. -/
theorem LocalStep.mem_pending (h : LocalStep host after) {event : Event}
    (hdisconnected : event.kind ≠ .disconnected) (hfailed : event.kind ≠ .failed) :
    event ∈ after.pending ↔ event ∈ host.pending := by
  cases h with
  | advance | sweep | release => exact Iff.rfl
  | report hevent =>
    rw [pushEvent, List.mem_append, or_iff_left]
    intro hmem
    rw [List.mem_singleton] at hmem
    subst hmem
    rcases hevent with hkind | hkind
    · exact hdisconnected hkind
    · exact hfailed hkind
  | note _ hpending => rw [hpending]

theorem LocalRun.mem_pending (h : host.LocalRun after) {event : Event}
    (hdisconnected : event.kind ≠ .disconnected) (hfailed : event.kind ≠ .failed) :
    event ∈ after.pending ↔ event ∈ host.pending := by
  induction h with
  | refl => exact Iff.rfl
  | tail _ hstep ih => exact (hstep.mem_pending hdisconnected hfailed).trans ih

/-! ## Reports and shares -/

theorem reportDeparture_localRun (host : Host) (id : PeerId) (state : PeerState) :
    host.LocalRun (host.reportDeparture id state) := by
  have hnote : LocalStep host host.requestRecalculation := .note rfl rfl
  have hboth : host.LocalRun (host.requestRecalculation.pushEvent (.disconnected id)) :=
    .tail (.single hnote) (.report (.inl rfl))
  cases state with
  | acknowledgingConnect => exact .refl
  | connecting => exact .single (.report (.inl rfl))
  | _ => exact hboth

theorem allocateBandwidth_localRun (host : Host) (now : Stamp) :
    host.LocalRun (host.allocateBandwidth now) := by
  unfold allocateBandwidth
  split
  · obtain ⟨slots, hslots, htable⟩ := host.allocator.run_slotwise (host.context now)
      host.settings.throttleScale host.table
    exact .tail (.single (.sweep hslots)) (.note htable rfl)
  · exact .refl

end Host

end ReliableDatagram
