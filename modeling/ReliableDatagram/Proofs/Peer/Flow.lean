import ReliableDatagram.Proofs.Peer.Terms

/-!
# How commands move through a peer

Handling a received command puts nothing into the queues of a peer but its acknowledgement.
A peer that is not connected composes datagrams out of what waits in its queues: each reliable
command stays outstanding, once, and nothing is added.
-/

namespace ReliableDatagram

namespace Peer

variable {peer middle after : Peer} {command : Command} {context : Context}

/-! ## Handling -/

/-- Nothing is in the queues of a peer that was not there before. -/
structure Sheds (peer after : Peer) : Prop where
  outstanding : after.outstanding ⊆ peer.outstanding
  unreliable : after.unreliable ⊆ peer.unreliable
  acknowledgements : after.acknowledgements ⊆ peer.acknowledgements

theorem Sheds.refl (peer : Peer) : Sheds peer peer where
  outstanding := List.Subset.refl _
  unreliable := List.Subset.refl _
  acknowledgements := List.Subset.refl _

theorem Sheds.trans (h : Sheds peer middle) (hmore : Sheds middle after) : Sheds peer after where
  outstanding := List.Subset.trans hmore.outstanding h.outstanding
  unreliable := List.Subset.trans hmore.unreliable h.unreliable
  acknowledgements := List.Subset.trans hmore.acknowledgements h.acknowledgements

/-- A peer whose queues are empty has shed all of them. -/
theorem Sheds.of_empty (hsent : after.sent = []) (hreliable : after.reliable = [])
    (hunreliable : after.unreliable = []) (hacknowledgements : after.acknowledgements = []) :
    Sheds peer after where
  outstanding := by simp [Peer.outstanding, hsent, hreliable]
  unreliable := by simp [hunreliable]
  acknowledgements := by simp [hacknowledgements]

theorem reset_sheds (peer : Peer) : Sheds peer peer.reset := .of_empty rfl rfl rfl rfl

theorem removeSent_sheds (peer : Peer) (sequence : UInt32) (channel : UInt8) :
    Sheds peer (peer.removeSent sequence channel).2 := by
  obtain ⟨hsubset, -⟩ := peer.removeSent_outstanding sequence channel
  obtain ⟨_, _, _, _, hremoved, -⟩ := peer.removeSent_eq sequence channel
  refine { outstanding := hsubset, unreliable := ?_, acknowledgements := ?_ } <;>
    rw [hremoved] <;> exact List.Subset.refl _

theorem TakesAcknowledgement.sheds {channel : UInt8} {sequence : UInt32} {sentTime : Stamp}
    {event : Option PeerEvent}
    (h : peer.TakesAcknowledgement channel sequence sentTime context event after) :
    Sheds peer after := by
  have hremoved : Sheds peer ((peer.heard sentTime context).removeSent sequence channel).2 :=
    { (peer.heard sentTime context).removeSent_sheds sequence channel with }
  cases h with
  | early => exact .refl peer
  | confirmed => exact { hremoved with }
  | departed => exact peer.reset_sheds
  | noted => exact hremoved

theorem removeConnect_sheds (peer : Peer) : Sheds peer peer.removeConnect := by
  have hfilter (other : Peer) : Sheds other
      { other with reliable := other.reliable.filter (·.command.tag != .connect) } := by
    refine { Sheds.refl other with outstanding := ?_ }
    intro command hcommand
    rw [mem_outstanding] at hcommand ⊢
    exact hcommand.imp_right fun h ↦ List.map_subset _ List.filter_sublist.subset h
  unfold removeConnect
  split
  · exact (peer.removeSent_sheds _ controlChannel).trans (hfilter _)
  · exact hfilter peer

theorem TakesGrant.sheds {answer : Handshake} {handled : Handled}
    (h : peer.TakesGrant answer handled) : Sheds peer handled.peer := by
  cases h with
  | unasked => exact .refl peer
  | refused => exact { Sheds.refl peer with }
  | granted => exact { peer.removeConnect_sheds with }

theorem handleDisconnect_sheds (peer : Peer) (confirm : Bool) :
    Sheds peer (peer.handleDisconnect confirm) := by
  unfold handleDisconnect
  split
  · exact .refl peer
  · exact .refl peer
  all_goals exact .of_empty rfl rfl rfl rfl

theorem perform_sheds {handled : Handled} (h : peer.perform command context = .ok handled) :
    Sheds peer handled.peer := by
  cases obeys_of_perform h with
  | nothing | refused => exact .refl peer
  | acknowledged _ htakes => exact htakes.sheds
  | answered _ hgrant => exact hgrant.sheds
  | left => exact peer.handleDisconnect_sheds _
  | taken | limited | throttled => exact { Sheds.refl peer with }

/-- Handling a command queues nothing but its acknowledgement, and that only if the state that
the connection is then in allows it. -/
theorem handle_queues {header : Header} {event : Option PeerEvent}
    (h : peer.handle header command context = .ok (event, after)) :
    after.outstanding ⊆ peer.outstanding ∧ after.unreliable ⊆ peer.unreliable ∧
      ∀ acknowledgement ∈ after.acknowledgements, acknowledgement ∈ peer.acknowledgements ∨
        command.requiresAcknowledgement = true ∧ acknowledges after.state command.tag = true ∧
          acknowledgement = .ofCommand command header.sentTime := by
  obtain ⟨handled, hperform, -, hafter⟩ := handle_eq_ok h
  have hsheds := perform_sheds hperform
  rcases hafter with rfl | ⟨-, hrequires, rfl⟩
  · exact ⟨hsheds.outstanding, hsheds.unreliable, fun _ h ↦ .inl (hsheds.acknowledgements h)⟩
  · obtain ⟨_, _, heq, hwaiting⟩ :=
      handled.peer.queueAcknowledgement_eq command header.sentTime
    rw [heq]
    refine ⟨hsheds.outstanding, hsheds.unreliable, fun acknowledgement hmem ↦ ?_⟩
    rcases hwaiting acknowledgement hmem with hmem | hnew
    · exact .inl (hsheds.acknowledgements hmem)
    · exact .inr ⟨hrequires, hnew⟩

/-! ## Composing -/

/-- A peer draws commands from its queues and keeps each reliable one outstanding. Confirming
the departure of the other end is all that can change its state. -/
structure Draws (peer : Peer) (commands : List Command) (after : Peer) : Prop where
  state : after.state = peer.state ∨ after.state = .zombie ∧
    ∃ acknowledgement ∈ peer.acknowledgements, acknowledgement.tag = .disconnect
  outstanding : after.outstanding.Perm peer.outstanding
  unreliable : after.unreliable ⊆ peer.unreliable
  acknowledgements : after.acknowledgements ⊆ peer.acknowledgements
  drawn : ∀ command ∈ commands,
    (∃ acknowledgement ∈ peer.acknowledgements, command = acknowledgement.toCommand) ∨
      (∃ outgoing ∈ peer.unreliable, command = outgoing.command) ∨ command ∈ peer.outstanding

variable {commands more : List Command}

theorem Draws.refl (peer : Peer) : Draws peer [] peer where
  state := .inl rfl
  outstanding := List.Perm.refl _
  unreliable := List.Subset.refl _
  acknowledgements := List.Subset.refl _
  drawn := by simp

/-- Two parts of a datagram, one after the other. -/
theorem Draws.trans (h : Draws peer commands middle) (hmore : Draws middle more after) :
    Draws peer (commands ++ more) after where
  state := by
    rcases hmore.state with hsame | ⟨hzombie, acknowledgement, hmem, htag⟩
    · rw [hsame]
      exact h.state
    · exact .inr ⟨hzombie, acknowledgement, h.acknowledgements hmem, htag⟩
  outstanding := List.Perm.trans hmore.outstanding h.outstanding
  unreliable := List.Subset.trans hmore.unreliable h.unreliable
  acknowledgements := List.Subset.trans hmore.acknowledgements h.acknowledgements
  drawn command hcommand := by
    rcases List.mem_append.mp hcommand with hcommand | hcommand
    · exact h.drawn command hcommand
    · rcases hmore.drawn command hcommand with ⟨acknowledgement, hmem, rfl⟩ |
        ⟨outgoing, hmem, rfl⟩ | hmem
      · exact .inl ⟨acknowledgement, h.acknowledgements hmem, rfl⟩
      · exact .inr (.inl ⟨outgoing, h.unreliable hmem, rfl⟩)
      · exact .inr (.inr (h.outstanding.subset hmem))

/-- A peer does not become connected by composing. -/
theorem Draws.ne_connected (h : Draws peer commands after) (hstate : peer.state ≠ .connected) :
    after.state ≠ .connected := by
  rcases h.state with hsame | ⟨hzombie, -⟩
  · rw [hsame]
    exact hstate
  · rw [hzombie]
    exact fun h ↦ by cases h

theorem sendAcknowledgements_draws (peer : Peer) (draft : Draft) :
    ∃ commands, (peer.sendAcknowledgements draft peer.acknowledgements).1.commands =
        draft.commands ++ commands ∧
      Draws peer commands (peer.sendAcknowledgements draft peer.acknowledgements).2 := by
  obtain ⟨taken, kept, state, hwaiting, hcommands, hstate, hafter⟩ :=
    peer.sendAcknowledgements_eq draft peer.acknowledgements
  refine ⟨taken.map (·.toCommand), hcommands, ?_⟩
  rw [hafter]
  refine { Draws.refl peer with state := ?_, acknowledgements := ?_, drawn := ?_ }
  · rw [hwaiting]
    exact hstate.imp_right fun ⟨hzombie, acknowledgement, hmem, htag⟩ ↦
      ⟨hzombie, acknowledgement, List.mem_append_left _ hmem, htag⟩
  · rw [hwaiting]
    exact List.subset_append_right _ _
  · intro command hcommand
    obtain ⟨acknowledgement, hmem, rfl⟩ := List.mem_map.mp hcommand
    rw [hwaiting]
    exact .inl ⟨acknowledgement, List.mem_append_left _ hmem, rfl⟩

theorem sendReliable_draws (peer : Peer) (draft : Draft) (now : Stamp) :
    ∃ commands, (peer.sendReliable draft now peer.reliable).1.commands =
        draft.commands ++ commands ∧
      Draws peer commands (peer.sendReliable draft now peer.reliable).2 := by
  obtain ⟨taken, kept, hqueue, hcommands, nextTimeout, inTransit, lossMeter, hafter⟩ :=
    peer.sendReliable_eq draft now peer.reliable
  refine ⟨taken.map (·.command), hcommands, ?_⟩
  rw [hafter]
  refine { Draws.refl peer with outstanding := ?_, drawn := ?_ }
  · apply List.Perm.of_eq
    simp only [Peer.outstanding, hqueue, List.map_append, peer.map_stamp_command,
      List.append_assoc]
  · intro command hcommand
    rw [mem_outstanding, hqueue, List.map_append, List.mem_append]
    exact .inr (.inr (.inr (.inl hcommand)))

theorem sendUnreliable_draws (peer : Peer) (draft : Draft) :
    ∃ commands, (peer.sendUnreliable draft peer.unreliable).1.commands =
        draft.commands ++ commands ∧
      Draws peer commands (peer.sendUnreliable draft peer.unreliable).2 := by
  obtain ⟨tried, passed, kept, pacing, hqueue, hsifts, hcommands, hafter⟩ :=
    peer.sendUnreliable_eq draft peer.unreliable
  refine ⟨passed.map (·.command), hcommands, ?_⟩
  rw [hafter]
  refine { Draws.refl peer with unreliable := ?_, drawn := ?_ }
  · rw [hqueue]
    exact List.subset_append_right _ _
  · intro command hcommand
    obtain ⟨outgoing, hmem, rfl⟩ := List.mem_map.mp hcommand
    rw [hqueue]
    exact .inr (.inl ⟨outgoing, List.mem_append_left _ (hsifts.sublist.subset hmem), rfl⟩)

theorem checkTimeouts_draws {now : Stamp} (h : peer.checkTimeouts now = (false, after)) :
    Draws peer [] after := by
  obtain ⟨_, _, _, _, rfl⟩ := checkTimeouts_eq h
  refine { Draws.refl peer with outstanding := ?_ }
  have hsplit : (peer.sent.filter (!·.isOverdue now) ++
      peer.sent.filter (·.isOverdue now)).Perm peer.sent :=
    List.perm_append_comm.trans (List.filter_append_perm _ _)
  have hcommands := (hsplit.map (·.command)).append_right (peer.reliable.map (·.command))
  simpa only [Peer.outstanding, List.map_append, backedOff_command, List.append_assoc]
    using hcommands

/-- A peer that is not connected sends no ping. -/
theorem fillReliable_draws (peer : Peer) (draft : Draft) (now : Stamp)
    (hstate : peer.state ≠ .connected) :
    ∃ commands, (peer.fillReliable draft now).1.commands = draft.commands ++ commands ∧
      Draws peer commands (peer.fillReliable draft now).2 := by
  unfold fillReliable
  split
  · exact peer.sendReliable_draws draft now
  · have hsilent : peer.needsPing draft now = false := by
      simp [needsPing, hstate]
    rw [if_neg (by rw [hsilent]; exact Bool.false_ne_true)]
    exact ⟨[], (List.append_nil _).symm, Draws.refl peer⟩

/-- A draft that is filled is filled with what is drawn from the queues. -/
theorem fill_draws {now : Stamp} {check : Bool} {draft : Draft} (hstate : peer.state ≠ .connected)
    (h : peer.fill now check = (some draft, after)) : Draws peer draft.commands after := by
  suffices ∃ commands, draft.commands = peer.draft.commands ++ commands ∧
      Draws peer commands after by
    obtain ⟨commands, hcommands, hdraws⟩ := this
    rw [hcommands]
    exact hdraws
  refine fill_induction (fun first peer second after ↦ peer.state ≠ .connected → ∃ commands,
    second.commands = first.commands ++ commands ∧ Draws peer commands after) ?_
    (fun draft peer _ ↦ peer.sendAcknowledgements_draws draft)
    (fun hlooked _ ↦ ⟨[], (List.append_nil _).symm, checkTimeouts_draws hlooked⟩)
    (fun draft peer ↦ peer.fillReliable_draws draft now)
    (fun draft peer _ ↦ peer.sendUnreliable_draws draft) h hstate
  intro _ _ _ _ _ _ hbefore hafter hstate
  obtain ⟨first, hfirst, hdraws⟩ := hbefore hstate
  obtain ⟨second, hsecond, hnext⟩ := hafter (hdraws.ne_connected hstate)
  exact ⟨first ++ second, by rw [hsecond, hfirst, List.append_assoc], hdraws.trans hnext⟩

/-- Composing gives the connection up, which needs a command that was sent, or draws the
commands of the datagram, if it brings one. -/
theorem compose_draws (peer : Peer) (now : Stamp) (check : Bool)
    (hstate : peer.state ≠ .connected) :
    ((peer.compose now check).1 = .ok .timedOut ∧
        (peer.compose now check).2.state = .disconnected ∧ peer.sent ≠ []) ∨
      (peer.compose now check).1 ≠ .ok .timedOut ∧ ∃ commands,
        Draws peer commands (peer.compose now check).2 ∧
          ∀ datagram, (peer.compose now check).1 = .ok (.datagram datagram) →
            ∀ header others, Datagram.Reads peer.settings.checksums datagram header others →
              header.challenge = peer.challenge ∧ others = commands := by
  have hyields := peer.compose_yields now check
  generalize peer.compose now check = composed at hyields
  obtain ⟨result, last⟩ := composed
  cases hyields with
  | idle => exact .inr ⟨fun h ↦ (by cases h), [], Draws.refl _, fun _ h ↦ by cases h⟩
  | gaveUp _ hfill =>
    obtain ⟨rfl, -, hsent⟩ := fill_eq_none hfill
    exact .inl ⟨rfl, rfl, hsent⟩
  | nothing _ hfill =>
    exact .inr ⟨fun h ↦ (by cases h), _, fill_draws hstate hfill, fun _ h ↦ by cases h⟩
  | failed _ hfill =>
    exact .inr ⟨fun h ↦ (by cases h), _, { fill_draws hstate hfill with }, fun _ h ↦ by cases h⟩
  | @datagram draft after _ _ _ _ hfill _ hbytes =>
    have hsettings : after.settings = peer.settings := congrArg Terms.settings (terms_fill hfill)
    have hchallenge : after.challenge = peer.challenge :=
      congrArg Terms.challenge (terms_fill hfill)
    refine .inr ⟨fun h ↦ (by cases h), draft.commands, { fill_draws hstate hfill with },
      fun datagram hdatagram header others hreads ↦ ?_⟩
    cases hdatagram
    rw [← hsettings] at hreads
    rw [← hchallenge]
    exact content_of_reads hbytes hreads

/-- Composing gives the connection up and forgets it, or draws the commands of the datagram, if
it brings one, with at most a ping beside them. -/
theorem compose_cases (peer : Peer) (now : Stamp) (check : Bool) :
    ((peer.compose now check).1 = .ok .timedOut ∧ (peer.compose now check).2 = peer.reset) ∨
      (peer.compose now check).1 ≠ .ok .timedOut ∧ ∃ commands,
        Composes peer commands (peer.compose now check).2 ∧
          ∀ datagram, (peer.compose now check).1 = .ok (.datagram datagram) →
            ∀ header others, Datagram.Reads peer.settings.checksums datagram header others →
              others = commands := by
  rcases peer.compose_state now check with ⟨hover, -⟩ | ⟨hgoes, hstate⟩
  · refine .inl ⟨hover, ?_⟩
    have hyields := peer.compose_yields now check
    generalize peer.compose now check = composed at hover hyields
    obtain ⟨result, last⟩ := composed
    subst hover
    cases hyields with
    | gaveUp _ hfill => exact (fill_eq_none hfill).1
  · refine .inr ⟨hgoes, ?_⟩
    rcases peer.compose_composes now check with hdisconnected | hcomposes
    · have hbefore : peer.state = .disconnected := by
        rcases hstate with hsame | hzombie
        · rw [← hsame, hdisconnected]
        · rw [hdisconnected] at hzombie
          cases hzombie
      rw [compose_of_not_active (by rw [hbefore]; rfl)]
      exact ⟨[], Composes.refl peer, fun _ h ↦ by cases h⟩
    · exact hcomposes

end Peer

end ReliableDatagram
