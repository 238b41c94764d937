import ReliableDatagram.Proofs.Host.Order
import Mathlib.Data.List.Chain

/-!
# What is told of a connection

A connection is put into a slot, and later it leaves the slot. In between the application is
told once at most that the connection stands. Packets of the connection are returned only after
that, and none is returned any more once either end has begun to leave.
-/

namespace ReliableDatagram

namespace PeerState

variable {state : PeerState}

theorem stage_pos_of_isStanding (h : state.isStanding = true) : 0 < state.stage := by
  cases state <;> first | decide | cases h

theorem LeadsTo.handshaking_or_connected (h : state.LeadsTo .connected) :
    state.isHandshaking = true ∨ state = .connected := by
  rcases h with rfl | hstage
  · exact .inr rfl
  · left
    cases state <;> first | rfl | exact absurd hstage (by decide)

end PeerState

namespace Host

variable {host middle after : Host} {id : PeerId}

def Connected (host : Host) (id : PeerId) : Prop :=
  ∃ peer, host.peer? id = some peer ∧ peer.state = .connected

/-- The slot is occupied, and what is in it has come no less far since. -/
def Leads (id : PeerId) (host after : Host) : Prop :=
  ∃ peer next, host.peer? id = some peer ∧ after.peer? id = some next ∧
    peer.state.LeadsTo next.state

theorem Leads.trans (h : Leads id host middle) (hmore : Leads id middle after) :
    Leads id host after := by
  obtain ⟨peer, next, hpeer, hnext, hleads⟩ := h
  obtain ⟨other, last, hother, hlast, hfurther⟩ := hmore
  cases hnext.symm.trans hother
  exact ⟨peer, last, hpeer, hlast, hleads.trans hfurther⟩

theorem Precedes.refl (host : Host) : Precedes host host :=
  .of_leads fun _ next hnext ↦ ⟨next, hnext, .refl _⟩

theorem Precedes.then_keeps (h : Precedes host middle) (hkeeps : middle.KeepsUnconnected after) :
    Precedes host after := by
  intro id last hlast
  obtain ⟨next, hnext, hslot⟩ := hkeeps.peers id last hlast
  refine (h id next hnext).imp_right ?_
  rintro ⟨peer, hpeer, hleads⟩
  exact ⟨peer, hpeer, hleads.trans hslot.leads⟩

theorem Precedes.of_table (h : Precedes host middle) (htable : after.table = middle.table) :
    Precedes host after := by
  intro id next hnext
  rw [Host.peer?, htable] at hnext
  exact h id next hnext

theorem isChain_concat {hosts : List Host} (h : (hosts ++ [host]).IsChain Precedes)
    (hlast : ∀ moment, Precedes moment host → Precedes moment after) :
    (hosts ++ [after]).IsChain Precedes := by
  obtain ⟨hhosts, -, hhost⟩ := List.isChain_append.mp h
  refine hhosts.append (.singleton _) fun moment hmoment other hother ↦ ?_
  cases hother
  exact hlast moment (hhost moment hmoment _ rfl)

/-- As long as a slot is occupied, what is in it is one connection, which comes further. -/
theorem pairwise_leads {hosts : List Host} (h : hosts.IsChain Precedes)
    (hoccupied : ∀ host ∈ hosts, host.peer? id ≠ none) : hosts.Pairwise (Leads id) := by
  have : Trans (Leads id) (Leads id) (Leads id) := ⟨Leads.trans⟩
  rw [← List.isChain_iff_pairwise]
  refine h.imp_of_mem_imp fun host after hhost hafter hprecedes ↦ ?_
  obtain ⟨next, hnext⟩ := Option.ne_none_iff_exists'.mp (hoccupied after hafter)
  obtain ⟨peer, hpeer, hleads⟩ := (hprecedes id next hnext).resolve_left (hoccupied host hhost)
  exact ⟨peer, next, hpeer, hnext, hleads⟩

/-- The connection in a slot that held one already has come no less far. -/
theorem KeepsUnconnected.precedes (h : host.KeepsUnconnected after) : Precedes host after :=
  (Precedes.refl host).then_keeps h

theorem Places.precedes (h : Places host id after) : Precedes host after := by
  intro other next hnext
  by_cases heq : other = id
  · exact .inl (heq ▸ h.lowest.vacant)
  · exact .inr ⟨next, (h.others other heq).symm.trans hnext, .refl _⟩

/-! ## The event that is returned -/

namespace Concludes

variable {last : Host} {event : Event} {result : Option Event}

/-- What waited is returned or still waits. -/
theorem mem_pending (h : last.Concludes result after) :
    event ∈ last.pending ↔ event ∈ after.pending ∨ result = some event ∧ last.pending ≠ [] := by
  cases h with
  | @reported first _ hpop =>
    rw [(popEvent_eq_some hpop).1, List.mem_cons]
    simp [eq_comm, or_comm]
  | found hpending | awaited hpending => simp [hpending]

/-- A greeting or a packet that is returned has waited, unless a packet has been found in a slot,
whose connection stands then. -/
theorem greeted (h : last.Concludes (some (.connected id)) after) :
    .connected id ∈ last.pending := by
  cases h with
  | reported hpop =>
    rw [(popEvent_eq_some hpop).1]
    exact List.mem_cons_self
  | found _ hfinds => cases hfinds
  | awaited _ hevent => simp [Event.kind] at hevent

theorem received {channel : UInt8} {packet : Packet}
    (h : last.Concludes (some (.received id channel packet)) after) :
    .received id channel packet ∈ last.pending ∨ after.Connected id := by
  cases h with
  | reported hpop =>
    rw [(popEvent_eq_some hpop).1]
    exact .inl List.mem_cons_self
  | found _ hfinds =>
    cases hfinds with
    | received hpeer hstate => exact .inr ⟨_, hpeer, hstate⟩
  | awaited _ hevent => simp [Event.kind] at hevent

end Concludes

end Host

open Host

variable {σ : Type} {env : Environment σ}

/-! ## While the host serves -/

namespace Trail

variable {past : List (Receipt σ)} {start host : Host} {id : PeerId}

theorem isChain (h : Trail env start past host) (horderly : start.Orderly) :
    (start :: past.map (·.before.host) ++ [host]).IsChain Precedes := by
  induction h with
  | start => exact List.isChain_pair.mpr (.refl start)
  | work _ hrun ih =>
    exact isChain_concat ih fun _ hprecedes ↦ hprecedes.then_keeps hrun.keepsUnconnected
  | receive htrail _ hhandle ih =>
    have hhears := LiveHost.handleDatagram_hears env hhandle (htrail.orderly horderly).1
    rw [List.map_append, List.map_singleton, ← List.cons_append]
    refine ih.append (.singleton _) fun moment hmoment other hother ↦ ?_
    rw [List.getLast?_concat] at hmoment
    cases hmoment
    cases hother
    exact hhears.precedes

/-- A connection that stands has stood all the time, unless it is to be reported now. -/
theorem connected (h : Trail env start past host) (horderly : start.Orderly)
    (hconnected : host.Connected id) :
    .connected id ∈ host.pending ∨
      ∀ moment ∈ start :: past.map (·.before.host), moment.Connected id := by
  induction h with
  | start =>
    refine .inr fun moment hmoment ↦ ?_
    cases List.mem_singleton.mp hmoment
    exact hconnected
  | @work past host after _ hrun ih =>
    have hkeeps := hrun.keepsUnconnected
    obtain ⟨next, hnext, hstate⟩ := hconnected
    obtain ⟨peer, hpeer, hslot⟩ := hkeeps.peers id next hnext
    exact (ih ⟨peer, hpeer, hslot.connected hstate⟩).imp_left
      (hkeeps.pending _ (by simp [Event.kind]) (by simp [Event.kind])).mpr
  | @receive past live after address datagram htrail hpending hhandle ih =>
    have hhears := LiveHost.handleDatagram_hears env hhandle (htrail.orderly horderly).1
    obtain ⟨next, hnext, hstate⟩ := hconnected
    refine (hhears.connected id next hnext hstate).symm.imp_right fun hbefore ↦ ?_
    have hall := (ih hbefore).resolve_left (by rw [hpending]; exact List.not_mem_nil)
    intro moment hmoment
    rw [List.map_append, ← List.cons_append, List.mem_append] at hmoment
    rcases hmoment with hmoment | hmoment
    · exact hall moment hmoment
    · cases List.mem_singleton.mp hmoment
      exact hbefore

/-- A connection that is to be reported now was not there when it began, or its handshake was
under way. -/
theorem greeted (h : Trail env start past host) (horderly : start.Orderly)
    (hgreeted : .connected id ∈ host.pending) :
    .connected id ∈ start.pending ∨ ∃ moment ∈ start :: past.map (·.before.host),
      ∀ peer, moment.peer? id = some peer → peer.state.stage = 0 := by
  induction h with
  | start => exact .inl hgreeted
  | work _ hrun ih =>
    have hpending := hrun.keepsUnconnected.pending (.connected id) (by simp [Event.kind])
      (by simp [Event.kind])
    exact ih (hpending.mp hgreeted)
  | @receive past live after address datagram htrail hpending hhandle ih =>
    have hhears := LiveHost.handleDatagram_hears env hhandle (htrail.orderly horderly).1
    rcases hhears.greets id hgreeted with hmem | hfresh
    · rw [hpending] at hmem
      cases hmem
    · exact .inr ⟨live.host, by simp, hfresh⟩

/-- Packets are never put among the events that wait. -/
theorem unreceived (h : Trail env start past host) (horderly : start.Orderly)
    (hstart : ∀ event ∈ start.pending, event.kind ≠ .received) :
    ∀ event ∈ host.pending, event.kind ≠ .received := by
  induction h with
  | start => exact hstart
  | work _ hrun ih =>
    intro event hmem hkind
    have hpending := hrun.keepsUnconnected.pending event (by simp [hkind]) (by simp [hkind])
    exact ih event (hpending.mp hmem) hkind
  | receive htrail hpending hhandle ih =>
    have hsound := (htrail.orderly horderly).1.exact.sound
    intro event hmem
    cases (LiveHost.handleDatagram_takes env hhandle hpending hsound).announces with
    | nothing hafter =>
      rw [hafter] at hmem
      cases hmem
    | failed hafter | departed hafter | connected hafter =>
      rw [hafter, List.mem_singleton] at hmem
      subst hmem
      simp [Event.kind]

end Trail

/-! ## Operations -/

theorem Turn.moments_of_ne (env : Environment σ) {turn : Turn σ}
    (h : ∀ timeout rounds, turn.operation ≠ .service timeout rounds) :
    turn.moments env = [turn.before.host] := by
  rw [moments, receipts_of_ne env h, List.map_nil]

namespace LiveHost.Proceeds

variable {live after : LiveHost σ} {operation : Operation σ} {answer : Answer} {id : PeerId}

theorem isChain (h : Proceeds env live operation answer after) (horderly : live.host.Orderly) :
    ((⟨live, operation, answer⟩ : Turn σ).moments env ++ [after.host]).IsChain Precedes := by
  cases h with
  | keeps hserves _ hkeeps =>
    rw [Turn.moments_of_ne env hserves]
    exact List.isChain_pair.mpr hkeeps.precedes
  | places hserves _ hplaces =>
    rw [Turn.moments_of_ne env hserves]
    exact List.isChain_pair.mpr hplaces.precedes
  | serves hoperation _ htrail hconcludes =>
    subst hoperation
    exact isChain_concat (htrail.isChain horderly) fun _ hprecedes ↦
      hprecedes.of_table hconcludes.table

/-- A connection that stands has stood all the time, unless it has just been reported. -/
theorem connected (h : Proceeds env live operation answer after) (horderly : live.host.Orderly)
    (hsilent : .connected id ∉ after.host.pending) (hconnected : after.host.Connected id) :
    answer = .returned (.connected id) ∨
      ∀ moment ∈ (⟨live, operation, answer⟩ : Turn σ).moments env, moment.Connected id := by
  have hwas (hserves : ∀ timeout rounds, operation ≠ .service timeout rounds)
      (hbefore : live.host.Connected id) :
      ∀ moment ∈ (⟨live, operation, answer⟩ : Turn σ).moments env, moment.Connected id := by
    intro moment hmoment
    rw [Turn.moments_of_ne env hserves, List.mem_singleton] at hmoment
    exact hmoment ▸ hbefore
  obtain ⟨next, hnext, hstate⟩ := hconnected
  cases h with
  | keeps hserves _ hkeeps =>
    obtain ⟨peer, hpeer, hslot⟩ := hkeeps.peers id next hnext
    exact .inr (hwas hserves ⟨peer, hpeer, hslot.connected hstate⟩)
  | @places opened hserves _ hplaces =>
    obtain ⟨peer, hpeer, -, hhandshaking⟩ := hplaces.placed
    have hne : id ≠ opened := by
      rintro rfl
      cases hpeer.symm.trans hnext
      rw [hstate] at hhandshaking
      cases hhandshaking
    exact .inr (hwas hserves ⟨next, (hplaces.others id hne).symm.trans hnext, hstate⟩)
  | @serves _ _ last hoperation _ htrail hconcludes =>
    subst hoperation
    have hlast : last.Connected id := by
      refine ⟨next, ?_, hstate⟩
      rwa [Host.peer?, hconcludes.table] at hnext
    refine (htrail.connected horderly hlast).imp_left fun hgreeted ↦ ?_
    have hreturned := (hconcludes.mem_pending.mp hgreeted).resolve_left hsilent
    exact Answer.event?_eq_some.mp hreturned.1

/-- A connection that is reported was not there at some time just before, or its handshake was
under way then. -/
theorem greeted (h : Proceeds env live operation (.returned (.connected id)) after)
    (horderly : live.host.Orderly) (hsilent : .connected id ∉ live.host.pending) :
    ∃ moment ∈ (⟨live, operation, .returned (.connected id)⟩ : Turn σ).moments env,
      ∀ peer, moment.peer? id = some peer → peer.state.stage = 0 := by
  cases h with
  | keeps _ hanswer | places _ hanswer => cases hanswer
  | serves hoperation _ htrail hconcludes =>
    subst hoperation
    exact (htrail.greeted horderly hconcludes.greeted).resolve_left hsilent

/-- A packet that is returned has been found in its slot, and its connection stands. -/
theorem received {channel : UInt8} {packet : Packet}
    (h : Proceeds env live operation (.returned (.received id channel packet)) after)
    (horderly : live.host.Orderly)
    (hunreceived : ∀ event ∈ live.host.pending, event.kind ≠ .received) :
    after.host.Connected id := by
  cases h with
  | keeps _ hanswer | places _ hanswer => cases hanswer
  | serves _ _ htrail hconcludes =>
    refine hconcludes.received.resolve_left fun hmem ↦ ?_
    exact htrail.unreceived horderly hunreceived _ hmem rfl

theorem unreceived (h : Proceeds env live operation answer after) (horderly : live.host.Orderly)
    (hunreceived : ∀ event ∈ live.host.pending, event.kind ≠ .received) :
    ∀ event ∈ after.host.pending, event.kind ≠ .received := by
  intro event hmem hkind
  refine absurd hkind ?_
  cases h with
  | keeps _ _ hkeeps =>
    exact hunreceived event ((hkeeps.pending event (by simp [hkind]) (by simp [hkind])).mp hmem)
  | places _ _ hplaces => exact hunreceived event (hplaces.pending ▸ hmem)
  | serves _ _ htrail hconcludes =>
    exact htrail.unreceived horderly hunreceived event (hconcludes.mem_pending.mpr (.inl hmem))

end LiveHost.Proceeds

/-! ## Runs -/

namespace Run

variable {turns : List (Turn σ)} {live after : LiveHost σ} {turn : Turn σ} {id : PeerId}

theorem proceeds (h : Run env (turns ++ [turn]) after)
    (hproper : ∀ step ∈ turns ++ [turn], step.operation.Proper) :
    Run env turns turn.before ∧ (∀ step ∈ turns, step.operation.Proper) ∧
      LiveHost.Proceeds env turn.before turn.operation turn.answer after := by
  obtain ⟨hrun, hperform⟩ := h.last
  obtain ⟨hbefore, hlast⟩ := List.forall_mem_append.mp hproper
  refine ⟨hrun, hbefore, ?_⟩
  exact LiveHost.proceeds_of_perform hperform (hlast turn (List.mem_singleton_self turn))
    (hrun.orderly hbefore).1.exact

/-- From one moment of a run to the next, a connection comes no less far or leaves its slot. -/
theorem isChain (h : Run env turns live) (hproper : ∀ step ∈ turns, step.operation.Proper) :
    (turns.flatMap (·.moments env) ++ [live.host]).IsChain Precedes := by
  induction h with
  | start => exact .singleton _
  | turn hrun hperform ih =>
    obtain ⟨-, hbefore, hproceeds⟩ := (hrun.turn hperform).proceeds hproper
    rw [List.flatMap_append, List.flatMap_singleton, List.append_assoc]
    exact List.isChain_split.mpr
      ⟨ih hbefore, hproceeds.isChain (hrun.orderly hbefore).1⟩

theorem unreceived (h : Run env turns live) (hproper : ∀ step ∈ turns, step.operation.Proper) :
    ∀ event ∈ live.host.pending, event.kind ≠ .received := by
  induction h with
  | start => exact fun _ hmem ↦ absurd hmem List.not_mem_nil
  | turn hrun hperform ih =>
    obtain ⟨-, hbefore, hproceeds⟩ := (hrun.turn hperform).proceeds hproper
    exact hproceeds.unreceived (hrun.orderly hbefore).1 (ih hbefore)

/-- A connection that stands has been reported, and has stood since. -/
theorem introduced (h : Run env turns live) (hproper : ∀ step ∈ turns, step.operation.Proper)
    (hconnected : live.host.Connected id) : ∃ earlier told since,
      turns = earlier ++ told :: since ∧ told.answer = .returned (.connected id) ∧
      ∀ host ∈ since.flatMap (·.moments env) ++ [live.host], host.Connected id := by
  induction h with
  | start =>
    obtain ⟨peer, hpeer, -⟩ := hconnected
    rw [peer?_create] at hpeer
    cases hpeer
  | @turn turns live after operation answer hrun hperform ih =>
    have hlast := hrun.turn hperform
    obtain ⟨-, hbefore, hproceeds⟩ := hlast.proceeds hproper
    rcases hproceeds.connected (hrun.orderly hbefore).1 (hlast.sound.2 id) hconnected with
      htold | hall
    · exact ⟨turns, _, [], rfl, htold, List.forall_mem_singleton.mpr hconnected⟩
    · obtain ⟨earlier, told, since, rfl, htold, hsince⟩ := ih hbefore (hall _ List.mem_cons_self)
      refine ⟨earlier, told, since ++ [⟨live, operation, answer⟩], by simp, htold, ?_⟩
      rw [List.flatMap_append, List.flatMap_singleton]
      exact List.forall_mem_append.mpr ⟨List.forall_mem_append.mpr
        ⟨(List.forall_mem_append.mp hsince).1, hall⟩, List.forall_mem_singleton.mpr hconnected⟩

/-- A connection that stands has been under way in its slot before. -/
theorem underWay (h : Run env turns live) (hproper : ∀ step ∈ turns, step.operation.Proper)
    (hconnected : live.host.Connected id) {earlier later : List Host} {host : Host}
    (heq : turns.flatMap (·.moments env) = earlier ++ host :: later)
    (hlater : ∀ next ∈ later, next.peer? id ≠ none) {peer : Peer}
    (hpeer : host.peer? id = some peer) :
    peer.state.isHandshaking = true ∨ peer.state = .connected := by
  obtain ⟨last, hlast, hstate⟩ := hconnected
  have hchain := h.isChain hproper
  rw [heq, List.append_assoc, List.cons_append] at hchain
  have hpairs : (host :: (later ++ [live.host])).Pairwise (Leads id) := by
    refine pairwise_leads hchain.right_of_append fun next hnext ↦ ?_
    rw [List.mem_cons, List.mem_append, List.mem_singleton] at hnext
    rcases hnext with rfl | hnext | rfl
    · exact hpeer ▸ Option.some_ne_none peer
    · exact hlater next hnext
    · exact hlast ▸ Option.some_ne_none last
  obtain ⟨found, next, hfound, hnext, hleads⟩ := (List.pairwise_cons.mp hpairs).1 live.host
    (List.mem_append_right _ (List.mem_singleton_self _))
  cases hpeer.symm.trans hfound
  cases hlast.symm.trans hnext
  exact (hstate ▸ hleads).handshaking_or_connected

/-- What happened before a step of a run is a run itself. -/
theorem before {earlier later : List (Turn σ)} (h : Run env (earlier ++ turn :: later) live) :
    Run env earlier turn.before := by
  induction later using List.reverseRecOn generalizing live with
  | nil => exact h.last.1
  | append_singleton later last ih =>
    rw [← List.cons_append, ← List.append_assoc] at h
    exact ih h.last.1

/-- A connection that has just been reported is in its slot, and its handshake is over. -/
theorem stage_of_told (h : Run env (turns ++ [turn]) live)
    (htold : turn.answer = .returned (.connected id)) :
    ∃ peer, live.host.peer? id = some peer ∧ 0 < peer.state.stage := by
  obtain ⟨hrun, hperform⟩ := h.last
  cases LiveHost.performs_of_perform env hperform hrun.sound.1 with
  | acts hanswer =>
    rw [htold] at hanswer
    cases hanswer
  | opens hanswer =>
    rw [htold] at hanswer
    cases hanswer
  | serves _ hservice =>
    rw [htold] at hservice
    obtain ⟨-, ⟨peer, hpeer, hstanding⟩, -⟩ := Reported.stands_of_service hrun hservice
    exact ⟨peer, hpeer, PeerState.stage_pos_of_isStanding hstanding⟩

/-- If the slot has been occupied at every moment since a connection in it was reported, then no
connection in it is reported again. -/
theorem vacant_between {earlier since : List (Turn σ)} {told : Turn σ}
    (h : Run env (earlier ++ told :: since ++ [turn]) live)
    (hproper : ∀ step ∈ earlier ++ told :: since ++ [turn], step.operation.Proper)
    (htold : told.answer = .returned (.connected id))
    (hanswer : turn.answer = .returned (.connected id)) :
    ∃ host ∈ (since ++ [turn]).flatMap (·.moments env), host.peer? id = none := by
  by_contra hnone
  have hoccupied : ∀ host ∈ (since ++ [turn]).flatMap (·.moments env), host.peer? id ≠ none :=
    fun host hmem hvacant ↦ hnone ⟨host, hmem, hvacant⟩
  obtain ⟨hrun, hbefore, hproceeds⟩ := h.proceeds hproper
  rw [hanswer] at hproceeds
  obtain ⟨moment, hmoment, hfresh⟩ :=
    hproceeds.greeted (hrun.orderly hbefore).1 (hrun.sound.2 id)
  have hmem : moment ∈ (since ++ [turn]).flatMap (·.moments env) :=
    List.mem_flatMap.mpr ⟨turn, List.mem_append_right _ (List.mem_singleton_self turn), hmoment⟩
  have hchain := h.isChain hproper
  have hall : earlier ++ told :: since ++ [turn] = earlier ++ [told] ++ (since ++ [turn]) := by simp
  rw [hall] at h hchain
  rw [List.flatMap_append, List.append_assoc] at hchain
  have hpairs := pairwise_leads hchain.right_of_append.left_of_append hoccupied
  obtain ⟨first, rest, hrest⟩ := List.exists_cons_of_ne_nil (List.concat_ne_nil turn since)
  rw [hrest] at h hpairs hmem
  rw [List.flatMap_cons, Turn.moments, List.cons_append] at hpairs hmem
  -- The connection was past its handshake when it was reported first.
  obtain ⟨peer, hpeer, hstage⟩ := h.before.stage_of_told htold
  rcases List.mem_cons.mp hmem with rfl | hmem
  · have hzero := hfresh peer hpeer
    omega
  · obtain ⟨found, next, hfound, hnext, hleads⟩ := (List.pairwise_cons.mp hpairs).1 moment hmem
    cases hpeer.symm.trans hfound
    have hle := hleads.stage_le
    have hzero := hfresh next hnext
    omega

/-- Between two reports that the connection in a slot stands, the slot has been vacant. A packet
is returned only of a connection that stands and has stood since it was reported; so nothing is
returned any more of a connection that has been left by either end. -/
theorem introduced_once (h : Run env (turns ++ [turn]) after)
    (hproper : ∀ step ∈ turns ++ [turn], step.operation.Proper) :
    (∀ id earlier told since, turn.answer = .returned (.connected id) →
      turns = earlier ++ told :: since → told.answer = .returned (.connected id) →
      ∃ host ∈ (since ++ [turn]).flatMap (·.moments env), host.peer? id = none) ∧
    ∀ id channel packet, turn.answer = .returned (.received id channel packet) →
      (∃ earlier told since, turns = earlier ++ told :: since ∧
        told.answer = .returned (.connected id) ∧
        ∀ host ∈ (since ++ [turn]).flatMap (·.moments env) ++ [after.host], host.Connected id) ∧
      ∀ earlier host later,
        (turns ++ [turn]).flatMap (·.moments env) = earlier ++ host :: later →
        (∀ next ∈ later, next.peer? id ≠ none) → ∀ peer, host.peer? id = some peer →
          peer.state.isHandshaking = true ∨ peer.state = .connected := by
  refine ⟨fun id earlier told since hanswer heq htold ↦ ?_, fun id channel packet hanswer ↦ ?_⟩
  · subst heq
    exact h.vacant_between hproper htold hanswer
  · obtain ⟨hrun, hbefore, hproceeds⟩ := h.proceeds hproper
    rw [hanswer] at hproceeds
    have hconnected := hproceeds.received (hrun.orderly hbefore).1 (hrun.unreceived hbefore)
    refine ⟨?_, fun _ _ _ heq hlater _ hpeer ↦ h.underWay hproper hconnected heq hlater hpeer⟩
    obtain ⟨earlier, told, since, heq, htold, hsince⟩ := h.introduced hproper hconnected
    obtain rfl | ⟨since, last, rfl⟩ := List.eq_nil_or_concat since
    · -- The step that returned the packet did not return the report.
      obtain ⟨-, hsame⟩ := List.append_inj' heq rfl
      cases hsame
      cases hanswer.symm.trans htold
    · rw [List.concat_eq_append] at heq hsince
      rw [← List.cons_append, ← List.append_assoc] at heq
      obtain ⟨hturns, hsame⟩ := List.append_inj' heq rfl
      cases hsame
      exact ⟨earlier, told, since, hturns, htold, hsince⟩

def confirmation : Bytes :=
  Header.encode ⟨0, 0, 1, 6, 7⟩ ++ Command.layout ⟨controlChannel, 0, 0, .acknowledge 1 1⟩

def letter : Bytes :=
  Header.encode ⟨0, 0, 1, 7, 7⟩ ++
    Command.layout ⟨0, Command.acknowledgeFlag, 1, .sendReliable [104, 105]⟩

/-- Another host asks for a connection, confirms it and sends a packet. -/
def conversation : List (Operation Script) := [
  .outside fun script ↦ { script with arriving := [(Reported.request, ⟨"10.0.0.9", 9⟩)] },
  .service 0 1,
  .outside fun script ↦
    { script with arriving := [(confirmation, ⟨"10.0.0.9", 9⟩), (letter, ⟨"10.0.0.9", 9⟩)] },
  .service 0 1,
  .service 0 1]

theorem proper_of_conversation {turns : List (Turn Script)} {live : LiveHost Script}
    (h : rehearse conversation = some (turns, live)) :
    ∀ turn ∈ turns, turn.operation.Proper := by
  refine LiveHost.forall_of_performAll? h fun operation hmem ↦ ?_
  simp only [conversation, List.mem_cons, List.not_mem_nil, or_false] at hmem
  obtain rfl | rfl | rfl | rfl | rfl := hmem <;> trivial

/-- The packet is returned after the connection was reported. -/
theorem introduced_once_conversation : ∃ turns turn after,
    rehearse conversation = some (turns ++ [turn], after) ∧
    turn.answer = .returned (.received 0 0 ⟨[104, 105], .reliable⟩) ∧
    ∃ earlier told since, turns = earlier ++ told :: since ∧
      told.answer = .returned (.connected 0) ∧
      ∀ host ∈ (since ++ [turn]).flatMap (·.moments Script.environment) ++ [after.host],
        host.Connected 0 := by
  have hreplay : ((rehearse conversation).any fun (turns, _) ↦ turns.getLast?.any
      (·.answer = .returned (.received 0 0 ⟨[104, 105], .reliable⟩))) := by
    decide +kernel
  obtain ⟨⟨all, after⟩, hlive, hlast⟩ := (Option.any_eq_true _ _).mp hreplay
  obtain ⟨turn, hturn, hanswer⟩ := (Option.any_eq_true _ _).mp hlast
  obtain ⟨turns, rfl⟩ := List.getLast?_eq_some_iff.mp hturn
  have hreturned := of_decide_eq_true hanswer
  have hproper := proper_of_conversation hlive
  exact ⟨turns, turn, after, hlive, hreturned,
    ((introduced_once (run_of_rehearse hlive) hproper).2 _ _ _ hreturned).1⟩

end Run

end ReliableDatagram
