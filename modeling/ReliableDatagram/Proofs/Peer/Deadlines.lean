import ReliableDatagram.Proofs.Peer.Emission
import ReliableDatagram.Proofs.Peer.Enrolment

/-!
# When overdue commands are found

Overdue commands are looked for only at or after one moment, and that moment is the deadline of
the command that has been in flight for longest. Every function of a peer is shown to keep it
so. When a peer is asked for datagrams until it has none, the last time it composes it has room
for reliable commands; so unless that moment is still to come, all that is overdue has left the
flight. Commands behind the oldest one can have shorter timeouts, since a timeout doubles with
every repetition and follows the round trip estimate; these stay in flight until the oldest one
is due. A connection that is over is not looked at any more.
-/

namespace ReliableDatagram

namespace Peer

variable {peer middle after : Peer} {now : Stamp} {check : Bool} {settings : Settings}
  {id : UInt16}

/-! ## The time to look again -/

/-- A command that goes out behind others does not change when they are due. -/
theorem awaitAcknowledgement_timed (h : Timed peer) (outgoing : Outgoing) (now : Stamp) :
    Timed (peer.awaitAcknowledgement outgoing now) := by
  intro oldest rest hcons
  rw [show (peer.awaitAcknowledgement outgoing now).sent = peer.sent ++ [peer.stamp outgoing now]
    from rfl] at hcons
  change (if peer.sent.isEmpty then now + (peer.stamp outgoing now).timeout
    else peer.nextTimeout) = oldest.deadline
  cases hbefore : peer.sent with
  | nil =>
    rw [hbefore] at hcons
    cases hcons
    rw [List.isEmpty_nil, if_pos rfl, Outgoing.deadline, stamp_sentTime]
  | cons first others =>
    rw [hbefore] at hcons
    cases hcons
    exact h _ _ hbefore

theorem sendReliable_timed (h : Timed peer) (draft : Draft) (now : Stamp)
    (queue : List Outgoing) : Timed (peer.sendReliable draft now queue).2 := by
  induction queue generalizing peer draft with
  | nil => exact h.of_eq rfl rfl
  | cons outgoing rest ih =>
    unfold sendReliable
    split
    · exact ih (awaitAcknowledgement_timed h outgoing now) _
    · exact h.of_eq rfl rfl

theorem fillReliable_timed (h : Timed peer) (draft : Draft) (now : Stamp) :
    Timed (peer.fillReliable draft now).2 := by
  obtain ⟨fresh, hping⟩ := peer.ping_joins
  unfold fillReliable
  split
  · exact sendReliable_timed h draft now _
  · split
    · exact sendReliable_timed (h.of_eq hping.sent hping.nextTimeout) draft now _
    · exact h

theorem checkTimeouts_timed (h : peer.checkTimeouts now = (false, after)) : Timed after := by
  rw [checkTimeouts_eq_ite] at h
  split at h
  · cases h
  · rw [← (Prod.mk.inj h).2]
    exact timed_refreshTimeout _

theorem fill_timed {draft : Draft} (htimed : Timed peer)
    (h : peer.fill now check = (some draft, after)) : Timed after := by
  have hunreliable (other : Peer) (draft : Draft) (hother : Timed other) :
      Timed (other.sendUnreliable draft other.unreliable).2 := by
    obtain ⟨_, _, _, _, -, -, -, hafter⟩ := other.sendUnreliable_eq draft other.unreliable
    rw [hafter]
    exact hother.of_eq rfl rfl
  have hacknowledged :
      Timed (peer.sendAcknowledgements peer.draft peer.acknowledgements).2 := by
    obtain ⟨_, _, _, -, -, -, hafter⟩ :=
      peer.sendAcknowledgements_eq peer.draft peer.acknowledgements
    rw [hafter]
    exact htimed.of_eq rfl rfl
  have hloads := peer.fill_loads now check
  rw [h] at hloads
  cases hloads with
  | roomy _ hlooks =>
    rcases hlooks with ⟨-, rfl⟩ | ⟨-, hlooked⟩
    · exact hunreliable _ _ (fillReliable_timed hacknowledged _ now)
    · exact hunreliable _ _ (fillReliable_timed (checkTimeouts_timed hlooked) _ now)
  | full => exact hunreliable _ _ hacknowledged

/-! ## What is kept about the flight -/

/-- Commands are in flight only where there is a connection and datagrams may hold commands, and
the oldest of them says when overdue ones are looked for. -/
structure Scheduled (settings : Settings) (peer : Peer) : Prop where
  timed : Timed peer
  room : peer.sent ≠ [] → 0 < settings.commandsPerDatagram
  ended : peer.state = .disconnected → peer.sent = []

theorem Scheduled.of_nil (h : peer.sent = []) : Scheduled settings peer where
  timed := timed_of_nil h
  room hsome := absurd h hsome
  ended _ := h

theorem Enrols.scheduled {fresh : List Command} (h : Enrols peer fresh after)
    (hscheduled : Scheduled settings peer) : Scheduled settings after where
  timed := by
    rcases h.timing with ⟨hsent, htimeout⟩ | htimed
    · exact hscheduled.timed.of_eq hsent htimeout
    · exact htimed
  room hsome := hscheduled.room fun hnone ↦ hsome (List.sublist_nil.mp (hnone ▸ h.sent))
  ended hover := by
    rcases h.ended hover with hbefore | hnone
    · exact List.sublist_nil.mp (hscheduled.ended hbefore ▸ h.sent)
    · exact hnone

/-- Commands are put into flight only where datagrams may hold commands. -/
theorem fill_room {draft : Draft} (h : peer.fill now check = (some draft, after))
    (hsome : after.sent ≠ []) : peer.sent ≠ [] ∨ 0 < peer.settings.commandsPerDatagram := by
  obtain ⟨manifest, hcommands, hships⟩ := fill_ships h
  have hlength := length_commands_le_of_fill h
  by_cases htaken : manifest.taken = []
  · refine .inl fun hnone ↦ hsome ?_
    have hparted := hships.flight_perm
    rw [hnone] at hparted
    rw [hships.sent, htaken, (List.append_eq_nil_iff.mp hparted.eq_nil).2]
    rfl
  · right
    have htakes := List.length_pos_iff.mpr htaken
    rw [hcommands, manifest.length_commands] at hlength
    omega

theorem fill_scheduled {draft : Draft} (hscheduled : Scheduled peer.settings peer)
    (hactive : peer.state.isActive = true) (h : peer.fill now check = (some draft, after)) :
    Scheduled peer.settings after where
  timed := fill_timed hscheduled.timed h
  room hsome := (fill_room h hsome).elim hscheduled.room fun hroom ↦ hroom
  ended hover := by
    rcases (fill_composes h).state with hsame | hzombie
    · rw [← hsame, hover] at hactive
      cases hactive
    · rw [hzombie] at hover
      cases hover

theorem compose_scheduled (hkeeps : peer.settings = settings) (hscheduled : Scheduled settings peer)
    (now : Stamp) (check : Bool) : Scheduled settings (peer.compose now check).2 := by
  subst hkeeps
  have hyields := peer.compose_yields now check
  generalize peer.compose now check = composed at hyields
  obtain ⟨result, last⟩ := composed
  cases hyields with
  | idle => exact hscheduled
  | gaveUp _ hfill =>
    rw [(fill_eq_none hfill).1]
    exact .of_nil rfl
  | nothing hactive hfill => exact fill_scheduled hscheduled hactive hfill
  | failed hactive hfill => exact { fill_scheduled hscheduled hactive hfill with }
  | datagram hactive hfill => exact { fill_scheduled hscheduled hactive hfill with }

theorem Reached.scheduled (h : Reached id settings peer) : Scheduled settings peer :=
  h.of_steps (.of_nil rfl) Enrols.scheduled fun now check hkeeps hscheduled ↦
    compose_scheduled hkeeps hscheduled now check

/-! ## Composing until there is nothing to send -/

/-- Datagrams are asked for at one moment, with a look for overdue commands each time, until there
is nothing to send. -/
inductive Quiets (now : Stamp) : Peer → Peer → Prop where
  | done {peer after : Peer} (hcompose : peer.compose now true = (.ok .nothing, after)) :
      Quiets now peer after
  /-- Something else comes of it, and is followed by the rest. -/
  | more {peer middle after : Peer} {result : Except EncodeError Composition}
      (hcompose : peer.compose now true = (result, middle)) (hresult : result ≠ .ok .nothing)
      (h : Quiets now middle after) : Quiets now peer after

theorem Reached.of_compose {result : Except EncodeError Composition}
    (h : Reached id settings peer) (hcompose : peer.compose now check = (result, after)) :
    Reached id settings after := by
  have hafter := h.compose now check
  rwa [hcompose] at hafter

/-- An empty list of commands can be laid out. -/
theorem encodeDatagram_nil (peer : Peer) (now : Stamp) :
    ∃ bytes, peer.encodeDatagram [] now = .ok bytes := ⟨_, rfl⟩

/-- Commands that cannot be laid out have left their queues as well. -/
theorem burden_lt_of_compose_ne {result : Except EncodeError Composition}
    (h : peer.compose now check = (result, after)) (hsome : result ≠ .ok .nothing)
    (hgoes : result ≠ .ok .timedOut) : after.burden now < peer.burden now := by
  have hless {draft : Draft} {filled : Peer} (hfill : peer.fill now check = (some draft, filled))
      (hcommands : draft.commands ≠ []) : filled.burden now < peer.burden now := by
    obtain ⟨manifest, heq, hships⟩ := fill_ships hfill
    have hburden := hships.burden_add_length_le
    have hlength := List.length_pos_iff.mpr hcommands
    rw [heq] at hlength
    omega
  have hyields := peer.compose_yields now check
  rw [h] at hyields
  cases hyields with
  | idle | nothing => exact absurd rfl hsome
  | gaveUp => exact absurd rfl hgoes
  | @failed draft filled _ _ _ _ hfill hfails =>
    change filled.burden now < _
    refine hless hfill fun hnone ↦ ?_
    obtain ⟨bytes, hbytes⟩ := filled.encodeDatagram_nil now
    rw [hnone, hbytes] at hfails
    cases hfails
  | @datagram _ filled _ _ _ _ hfill hcommands =>
    change filled.burden now < _
    exact hless hfill hcommands

theorem exists_quiets (peer : Peer) (now : Stamp) : ∃ after, Quiets now peer after := by
  induction hburden : peer.burden now using Nat.strong_induction_on generalizing peer with
  | _ bound ih =>
    subst hburden
    cases hcompose : peer.compose now true with
    | mk result last =>
      by_cases hnothing : result = .ok .nothing
      · exact ⟨last, .done (hnothing ▸ hcompose)⟩
      by_cases hgaveUp : result = .ok .timedOut
      · -- The connection is forgotten, so that nothing is left to send.
        have hover : last.state.isActive = false := by
          have hreset := (peer.compose_cases now true).resolve_right fun hgoes ↦
            hgoes.1 (by rw [hcompose, hgaveUp])
          have hforgotten : last = peer.reset := by rw [← hreset.2, hcompose]
          rw [hforgotten]
          rfl
        exact ⟨last, .more hcompose hnothing (.done (compose_of_not_active hover))⟩
      · obtain ⟨after, hquiets⟩ := ih _ (burden_lt_of_compose_ne hcompose hnothing hgaveUp) _ rfl
        exact ⟨after, .more hcompose hnothing hquiets⟩

/-! ## Looking for overdue commands -/

/-- Nothing in flight is overdue, or it is time to look for what is. -/
def Watched (now : Stamp) (peer : Peer) : Prop :=
  (∀ outgoing ∈ peer.sent, outgoing.isOverdue now = false) ∨ peer.timeoutsDue now = true

/-- What goes out now is not overdue, and what was overdue has been found, unless the
acknowledgements have left no room to look for it. -/
theorem fill_finds {draft : Draft} (hwatched : Watched now peer)
    (h : peer.fill now true = (some draft, after)) :
    (∀ outgoing ∈ after.sent, outgoing.isOverdue now = false) ∨
      peer.timeoutsDue now = true ∧ after.sent = peer.sent ∧
        peer.settings.commandsPerDatagram ≤ draft.commands.length := by
  obtain ⟨manifest, hcommands, hships⟩ := fill_ships h
  have hlength := length_commands_le_of_fill h
  have hcount := manifest.length_commands
  rw [← hcommands] at hcount
  have hpunctual (hawaited : ∀ outgoing ∈ manifest.awaited, outgoing.isOverdue now = false) :
      ∀ outgoing ∈ after.sent, outgoing.isOverdue now = false := by
    intro outgoing hmem
    rw [hships.sent] at hmem
    rcases List.mem_append.mp hmem with hmem | hmem
    · exact hawaited outgoing hmem
    · obtain ⟨other, -, rfl⟩ := List.mem_map.mp hmem
      exact peer.stamp_isOverdue other now
  have hflight := hships.flight
  split at hflight <;> rename_i hlooks <;> obtain ⟨-, hawaited⟩ := Prod.mk.inj hflight
  · refine .inl (hpunctual fun outgoing hmem ↦ ?_)
    rw [hawaited] at hmem
    simpa using (List.mem_filter.mp hmem).2
  · rcases hwatched with hnone | hdue
    · exact .inl (hpunctual (hawaited ▸ hnone))
    · have hfull : peer.settings.commandsPerDatagram ≤ manifest.acknowledged.length := by
        simpa [looks, hdue] using hlooks
      have htaken : manifest.taken = [] := List.eq_nil_of_length_eq_zero (by omega)
      refine .inr ⟨hdue, ?_, by omega⟩
      rw [hships.sent, hawaited, htaken, List.map_nil, List.append_nil]

theorem fill_watched {draft : Draft} (htimed : Timed peer) (hwatched : Watched now peer)
    (h : peer.fill now true = (some draft, after)) : Watched now after := by
  rcases fill_finds hwatched h with hpunctual | ⟨hdue, hsent, -⟩
  · exact .inl hpunctual
  · right
    cases hflying : peer.sent with
    | nil =>
      rw [timeoutsDue, hflying] at hdue
      cases hdue
    | cons oldest rest =>
      rw [timeoutsDue, htimed oldest rest hflying] at hdue
      rw [timeoutsDue, hsent, fill_timed htimed h oldest rest (hsent.trans hflying)]
      exact hdue

theorem compose_watched {result : Except EncodeError Composition} (htimed : Timed peer)
    (hwatched : Watched now peer) (h : peer.compose now true = (result, after)) :
    Watched now after := by
  have hyields := peer.compose_yields now true
  rw [h] at hyields
  cases hyields with
  | idle => exact hwatched
  | gaveUp _ hfill =>
    have hforgotten : after = peer.reset := (fill_eq_none hfill).1
    rw [hforgotten]
    exact .inl fun outgoing hmem ↦ by cases hmem
  | nothing _ hfill | failed _ hfill | datagram _ hfill =>
    have hfilled := fill_watched htimed hwatched hfill
    exact hfilled

/-- A peer that has nothing to send has room to look for overdue commands, and so has found all of
them. -/
theorem compose_nothing (hscheduled : Scheduled peer.settings peer) (hwatched : Watched now peer)
    (h : peer.compose now true = (.ok .nothing, after)) (hgoes : after.state ≠ .zombie) :
    ∀ outgoing ∈ after.sent, outgoing.isOverdue now = false := by
  have hyields := peer.compose_yields now true
  rw [h] at hyields
  cases hyields with
  | idle hover =>
    have hdisconnected : after.state = .disconnected := by
      revert hover hgoes
      cases after.state <;> simp [PeerState.isActive]
    rw [hscheduled.ended hdisconnected]
    exact fun outgoing hmem ↦ by cases hmem
  | nothing _ hfill hnone =>
    rcases fill_finds hwatched hfill with hpunctual | ⟨hdue, -, hfull⟩
    · exact hpunctual
    · have hroom := hscheduled.room fun hempty ↦ by
        rw [timeoutsDue, hempty] at hdue
        cases hdue
      rw [hnone, List.length_nil] at hfull
      omega

/-- A command is not overdue before its deadline, unless it was sent later than now. -/
theorem isOverdue_of_before {outgoing : Outgoing}
    (hsent : Stamp.notBefore now outgoing.sentTime = true)
    (hbefore : Stamp.before now outgoing.deadline = true) : outgoing.isOverdue now = false := by
  rw [Stamp.before_iff] at hbefore
  rw [Outgoing.isOverdue, decide_eq_false_iff_not, Stamp.distance_of_notBefore hsent]
  intro hoverdue
  apply Stamp.notBefore_iff.mp hsent
  -- Since it was sent, at least its timeout has passed; the rest has passed since its deadline.
  have hrest : now - outgoing.deadline = now - outgoing.sentTime - outgoing.timeout := by
    simp only [Outgoing.deadline, UInt32.sub_eq_add_neg, UInt32.neg_add, UInt32.add_assoc]
  rw [hrest] at hbefore
  rw [UInt32.le_iff_toNat_le] at hbefore ⊢
  rw [UInt32.toNat_sub_of_le _ _ hoverdue] at hbefore
  omega

theorem Quiets.punctual (h : Quiets now peer after) (hreached : Reached id settings peer)
    (hwatched : Watched now peer) (hgoes : after.state ≠ .zombie) :
    ∀ outgoing ∈ after.sent, outgoing.isOverdue now = false := by
  induction h with
  | done hcompose =>
    have hscheduled := hreached.scheduled
    rw [← hreached.keeps] at hscheduled
    exact compose_nothing hscheduled hwatched hcompose hgoes
  | more hcompose _ _ ih =>
    exact ih (hreached.of_compose hcompose)
      (compose_watched hreached.scheduled.timed hwatched hcompose) hgoes

/-- Whatever has happened to a peer, at any moment it has nothing left to send after it has been
asked for datagrams often enough. Then none of its commands in flight is overdue, unless its
connection is over or the moment is before the deadline of the command that had been in flight
for longest; that one is not overdue, at least if it was not sent later than now. -/
theorem Reached.falls_quiet (h : Reached id settings peer) (now : Stamp) :
    (∃ after, Quiets now peer after) ∧ ∀ after, Quiets now peer after →
      after.state = .zombie ∨ (∀ outgoing ∈ after.sent, outgoing.isOverdue now = false) ∨
        ∃ oldest rest, peer.sent = oldest :: rest ∧ peer.nextTimeout = oldest.deadline ∧
          Stamp.before now oldest.deadline = true ∧
          (Stamp.notBefore now oldest.sentTime = true → oldest.isOverdue now = false) := by
  refine ⟨exists_quiets peer now, fun after hquiets ↦ ?_⟩
  by_cases hgoes : after.state = .zombie
  · exact .inl hgoes
  refine .inr ?_
  cases hflight : peer.sent with
  | nil =>
    have hwatched : Watched now peer := .inl (by simp [hflight])
    exact .inl (hquiets.punctual h hwatched hgoes)
  | cons oldest rest =>
    have hnext := h.scheduled.timed oldest rest hflight
    cases hbefore : Stamp.before now oldest.deadline with
    | true =>
      exact .inr ⟨oldest, rest, rfl, hnext, hbefore, fun hpast ↦ isOverdue_of_before hpast hbefore⟩
    | false =>
      have hwatched : Watched now peer :=
        .inr (by rw [timeoutsDue, hflight, hnext, Stamp.notBefore, hbefore]; rfl)
      exact .inl (hquiets.punctual h hwatched hgoes)

/-- A connection on which a packet is sent and, when it is overdue, sent again with twice the
timeout; a second packet goes out behind it. -/
def straggling : List Action :=
  let context : Context := ⟨1000, 0, 0⟩
  [.connect ⟨"10.0.0.1", 4000⟩ 1 7 context,
    .handle ⟨0, 0, 1, 1000, 7⟩ ⟨controlChannel, Command.acknowledgeFlag, 1,
      .verifyConnect ⟨3, 1400, 32768, 1, 0, 0, Settings.throttle {}⟩⟩ context,
    .send 0 ⟨[1], .reliable⟩, .compose 1000 true, .compose 1500 true,
    .send 0 ⟨[2], .reliable⟩, .compose 1600 true]

/-- A connection that is asked for with one channel and granted with two. -/
def mismatched : List Action :=
  let context : Context := ⟨1000, 0, 0⟩
  [.connect ⟨"10.0.0.1", 4000⟩ 1 7 context, .compose 1000 true,
    .handle ⟨0, 0, 1, 1000, 7⟩ ⟨controlChannel, Command.acknowledgeFlag, 1,
      .verifyConnect ⟨3, 1400, 32768, 2, 0, 0, Settings.throttle {}⟩⟩ context]

/-- When the oldest command is due, both packets are overdue and are found. -/
theorem falls_quiet_straggling : ∃ events peer after,
    (vacant 0 {}).run straggling = .ok (events, peer) ∧ peer.sent.all (·.isOverdue 2500) = true ∧
      Quiets 2500 peer after ∧ after.sent.length = 2 ∧
      ∀ outgoing ∈ after.sent, outgoing.isOverdue 2500 = false := by
  have hreplay : ((vacant 0 {}).run straggling).toOption.any (fun result ↦
      let middle := (result.2.compose 2500 true).2
      let after := (middle.compose 2500 true).2
      result.2.sent.all (·.isOverdue 2500) && !Stamp.before 2500 result.2.nextTimeout &&
        (result.2.compose 2500 true).1.toOption.any (· != .nothing) &&
        (middle.compose 2500 true).1.toOption.any (· == .nothing) &&
        after.state == .connected && after.sent.length == 2) = true := by
    decide +kernel
  obtain ⟨⟨events, peer⟩, hrun, hends⟩ := exists_of_any_toOption hreplay
  simp only [Bool.and_eq_true, beq_iff_eq, Bool.not_eq_true'] at hends
  obtain ⟨⟨⟨⟨⟨hoverdue, hdue⟩, hfirst⟩, hlast⟩, hconnected⟩, hlength⟩ := hends
  obtain ⟨first, hresult, hsome⟩ := exists_of_any_toOption hfirst
  obtain ⟨last, hnothing, hnone⟩ := exists_of_any_toOption hlast
  have hquiets : Quiets 2500 peer ((peer.compose 2500 true).2.compose 2500 true).2 := by
    refine .more (Prod.ext hresult rfl) ?_ (.done (Prod.ext ?_ rfl))
    · intro heq
      cases heq
      cases hsome
    · rw [hnothing, beq_iff_eq.mp hnone]
  refine ⟨events, peer, _, hrun, hoverdue, hquiets, hlength, ?_⟩
  rcases (Reached.falls_quiet (Reached.vacant.run hrun) 2500).2 _ hquiets with hzombie | hpunctual |
    ⟨oldest, rest, -, hnext, hbefore, -⟩
  · rw [hconnected] at hzombie
    cases hzombie
  · exact hpunctual
  · rw [← hnext, hdue] at hbefore
    cases hbefore

/-- Before the oldest command is due, the second packet stays in flight though it is overdue; and
so does the request of a connection that came to nothing. -/
theorem overdue_straggling :
    (∃ events peer after outgoing, (vacant 0 {}).run straggling = .ok (events, peer) ∧
      Quiets 2200 peer after ∧ after.state = .connected ∧ outgoing ∈ after.sent ∧
      outgoing.isOverdue 2200 = true) ∧
    ∃ events peer after outgoing, (vacant 0 {}).run mismatched = .ok (events, peer) ∧
      Quiets 2200 peer after ∧ after.state = .zombie ∧ outgoing ∈ after.sent ∧
      outgoing.isOverdue 2200 = true := by
  have hstays {actions : List Action} {state : PeerState}
      (hreplay : ((vacant 0 {}).run actions).toOption.any (fun result ↦
        let after := (result.2.compose 2200 true).2
        (result.2.compose 2200 true).1.toOption.any (· == .nothing) &&
          after.state == state && after.sent.any (·.isOverdue 2200)) = true) :
      ∃ events peer after outgoing, (vacant 0 {}).run actions = .ok (events, peer) ∧
        Quiets 2200 peer after ∧ after.state = state ∧ outgoing ∈ after.sent ∧
        outgoing.isOverdue 2200 = true := by
    obtain ⟨⟨events, peer⟩, hrun, hends⟩ := exists_of_any_toOption hreplay
    simp only [Bool.and_eq_true, beq_iff_eq, List.any_eq_true] at hends
    obtain ⟨⟨hlast, hstate⟩, outgoing, hmem, hoverdue⟩ := hends
    obtain ⟨last, hnothing, hnone⟩ := exists_of_any_toOption hlast
    rw [beq_iff_eq.mp hnone] at hnothing
    exact ⟨events, peer, _, outgoing, hrun, .done (Prod.ext hnothing rfl), hstate, hmem, hoverdue⟩
  exact ⟨hstays (by decide +kernel), hstays (by decide +kernel)⟩

end Peer

end ReliableDatagram
