import ReliableDatagram.Peer.Composition
import ReliableDatagram.Proofs.Peer.Queueing
import ReliableDatagram.Proofs.Wire.RoundTrip

/-!
# What composing a datagram does

A datagram holds acknowledgements that waited, commands that await an acknowledgement or
waited to be sent, and at most a ping beside them. Composing moves commands between the
queues of a peer and never loses a reliable one, except that a peer that gives the
connection up forgets everything. Each part of a datagram is shown to be of this form, and
the parts are put together.
-/

namespace ReliableDatagram

namespace Peer

/-- The commands are drawn from the queues of the peer, which becomes `after`. -/
structure Composes (peer : Peer) (commands : List Command) (after : Peer) : Prop where
  state : after.state = peer.state ∨ after.state = .zombie
  settings : after.settings = peer.settings
  known : after.known = peer.known
  channels : after.channels = peer.channels
  acknowledgements : after.acknowledgements ⊆ peer.acknowledgements
  unreliable : after.unreliable ⊆ peer.unreliable
  kept : peer.outstanding ⊆ after.outstanding
  outstanding : ∀ command ∈ after.outstanding,
    command ∈ peer.outstanding ∨ command.channel = controlChannel ∧ command.body = .ping
  drawn : ∀ command ∈ commands,
    (∃ acknowledgement ∈ peer.acknowledgements, command = acknowledgement.toCommand) ∨
      (∃ outgoing ∈ peer.unreliable, command = outgoing.command) ∨
      command ∈ peer.outstanding ∨ command.channel = controlChannel ∧ command.body = .ping

namespace Composes

variable {peer middle after : Peer} {commands more : List Command}

theorem refl (peer : Peer) : Composes peer [] peer where
  state := .inl rfl
  settings := rfl
  known := rfl
  channels := rfl
  acknowledgements := List.Subset.refl _
  unreliable := List.Subset.refl _
  kept := List.Subset.refl _
  outstanding _ hcommand := .inl hcommand
  drawn := by simp

/-- Two parts of a datagram, one after the other. -/
theorem trans (h : Composes peer commands middle) (hmore : Composes middle more after) :
    Composes peer (commands ++ more) after where
  state := by
    rcases hmore.state with hstate | hstate
    · rw [hstate]
      exact h.state
    · exact .inr hstate
  settings := hmore.settings.trans h.settings
  known := hmore.known.trans h.known
  channels := hmore.channels.trans h.channels
  acknowledgements := List.Subset.trans hmore.acknowledgements h.acknowledgements
  unreliable := List.Subset.trans hmore.unreliable h.unreliable
  kept := List.Subset.trans h.kept hmore.kept
  outstanding command hcommand := by
    rcases hmore.outstanding command hcommand with hmiddle | hping
    · exact h.outstanding command hmiddle
    · exact .inr hping
  drawn command hcommand := by
    rcases List.mem_append.mp hcommand with hcommand | hcommand
    · exact h.drawn command hcommand
    · rcases hmore.drawn command hcommand with ⟨acknowledgement, hmem, rfl⟩ |
        ⟨outgoing, hmem, rfl⟩ | hmem | hping
      · exact .inl ⟨acknowledgement, h.acknowledgements hmem, rfl⟩
      · exact .inr (.inl ⟨outgoing, h.unreliable hmem, rfl⟩)
      · exact .inr (.inr (h.outstanding command hmem))
      · exact .inr (.inr (.inr hping))

end Composes

/-! ## The parts of a datagram -/

/-- A prefix of the acknowledgements goes out, and the peer has left if one of them confirms
the departure of the other end. -/
theorem sendAcknowledgements_eq (peer : Peer) (draft : Draft) (waiting : List Acknowledgement) :
    ∃ taken kept state, waiting = taken ++ kept ∧
      (peer.sendAcknowledgements draft waiting).1.commands =
        draft.commands ++ taken.map (·.toCommand) ∧
      (state = peer.state ∨ state = .zombie ∧ ∃ acknowledgement ∈ taken,
        acknowledgement.tag = .disconnect) ∧
      (peer.sendAcknowledgements draft waiting).2 =
        { peer with acknowledgements := kept, state := state } := by
  induction waiting generalizing peer draft with
  | nil => exact ⟨[], [], peer.state, rfl, by simp [sendAcknowledgements], .inl rfl, rfl⟩
  | cons acknowledgement rest ih =>
    unfold sendAcknowledgements
    split
    · dsimp only
      obtain ⟨taken, kept, state, hrest, hcommands, hstate, hafter⟩ :=
        ih (if acknowledgement.tag = .disconnect then { peer with state := .zombie } else peer)
          (draft.push acknowledgement.toCommand)
      refine ⟨acknowledgement :: taken, kept, state, by rw [hrest, List.cons_append], ?_, ?_, ?_⟩
      · rw [hcommands]
        simp [Draft.push]
      · rcases hstate with hsame | ⟨hzombie, other, hmem, htag⟩
        · split at hsame
          · rename_i htag
            exact .inr ⟨hsame, acknowledgement, List.mem_cons_self, htag⟩
          · exact .inl hsame
        · exact .inr ⟨hzombie, other, List.mem_cons_of_mem _ hmem, htag⟩
      · rw [hafter]
        split <;> rfl
    · exact ⟨[], acknowledgement :: rest, peer.state, rfl, by simp, .inl rfl, rfl⟩

theorem sendAcknowledgements_composes (peer : Peer) (draft : Draft) :
    ∃ commands, (peer.sendAcknowledgements draft peer.acknowledgements).1.commands =
        draft.commands ++ commands ∧
      Composes peer commands (peer.sendAcknowledgements draft peer.acknowledgements).2 := by
  obtain ⟨taken, kept, state, hwaiting, hcommands, hstate, hafter⟩ :=
    peer.sendAcknowledgements_eq draft peer.acknowledgements
  refine ⟨taken.map (·.toCommand), hcommands, ?_⟩
  rw [hafter]
  refine { Composes.refl peer with
    state := hstate.imp_right And.left
    acknowledgements := ?_
    drawn := fun command hcommand ↦ .inl ?_ }
  · rw [hwaiting]
    exact List.subset_append_right _ _
  · obtain ⟨acknowledgement, hmem, rfl⟩ := List.mem_map.mp hcommand
    rw [hwaiting]
    exact ⟨acknowledgement, List.mem_append_left _ hmem, rfl⟩

theorem stamp_command (peer : Peer) (outgoing : Outgoing) (now : Stamp) :
    (peer.stamp outgoing now).command = outgoing.command := by
  unfold stamp
  split <;> rfl

/-- Commands that are sent are the same commands. -/
theorem map_stamp_command (peer : Peer) (taken : List Outgoing) (now : Stamp) :
    (taken.map (peer.stamp · now)).map (·.command) = taken.map (·.command) := by
  rw [List.map_map]
  exact List.map_congr_left fun outgoing _ ↦ peer.stamp_command outgoing now

/-- A prefix of the queue goes behind the commands that await their acknowledgement, each with the
time at which it is sent. -/
theorem sendReliable_eq (peer : Peer) (draft : Draft) (now : Stamp) (queue : List Outgoing) :
    ∃ taken kept, queue = taken ++ kept ∧
      (peer.sendReliable draft now queue).1.commands =
        draft.commands ++ taken.map (·.command) ∧
      ∃ nextTimeout inTransit lossMeter, (peer.sendReliable draft now queue).2 = { peer with
        reliable := kept
        sent := peer.sent ++ taken.map (peer.stamp · now)
        nextTimeout := nextTimeout
        inTransit := inTransit
        lossMeter := lossMeter } := by
  induction queue generalizing peer draft with
  | nil =>
    exact ⟨[], [], rfl, by simp [sendReliable], peer.nextTimeout, peer.inTransit, peer.lossMeter,
      by simp [sendReliable]⟩
  | cons outgoing rest ih =>
    unfold sendReliable
    split
    · obtain ⟨taken, kept, hqueue, hcommands, nextTimeout, inTransit, lossMeter, hafter⟩ :=
        ih (peer.awaitAcknowledgement outgoing now) (draft.push outgoing.command)
      refine ⟨outgoing :: taken, kept, by rw [hqueue, List.cons_append], ?_, nextTimeout,
        inTransit, lossMeter, ?_⟩
      · rw [hcommands]
        simp [Draft.push]
      · have hsame : ((peer.awaitAcknowledgement outgoing now).stamp · now) =
            (peer.stamp · now) := rfl
        rw [hafter, hsame]
        simp [awaitAcknowledgement]
    · exact ⟨[], outgoing :: rest, rfl, by simp, peer.nextTimeout, peer.inTransit, peer.lossMeter,
        by simp⟩

theorem sendReliable_composes (peer : Peer) (draft : Draft) (now : Stamp) :
    ∃ commands, (peer.sendReliable draft now peer.reliable).1.commands =
        draft.commands ++ commands ∧
      Composes peer commands (peer.sendReliable draft now peer.reliable).2 := by
  obtain ⟨taken, kept, hqueue, hcommands, nextTimeout, inTransit, lossMeter, hafter⟩ :=
    peer.sendReliable_eq draft now peer.reliable
  have hsame (command : Command) :
      command ∈ (peer.sendReliable draft now peer.reliable).2.outstanding ↔
        command ∈ peer.outstanding := by
    rw [hafter, mem_outstanding, mem_outstanding, hqueue, List.map_append, List.map_append,
      peer.map_stamp_command, List.mem_append, List.mem_append, or_assoc]
  refine ⟨taken.map (·.command), hcommands, ?_⟩
  refine {
    state := .inl (by rw [hafter])
    settings := by rw [hafter]
    known := by rw [hafter]; rfl
    channels := by rw [hafter]
    acknowledgements := by rw [hafter]; exact List.Subset.refl _
    unreliable := by rw [hafter]; exact List.Subset.refl _
    kept := fun command hcommand ↦ (hsame command).mpr hcommand
    outstanding := fun command hcommand ↦ .inl ((hsame command).mp hcommand)
    drawn := fun command hcommand ↦ .inr (.inr (.inl ?_)) }
  rw [mem_outstanding, hqueue, List.map_append, List.mem_append]
  exact .inr (.inl hcommand)

end Peer

/-- Commands meet the throttle one after the other. One without a payload passes in any case, any
other if the throttle lets it, and those that do not pass are missing. -/
inductive Pacing.Sifts : Pacing → List Outgoing → List Outgoing → Pacing → Prop where
  | nil (pacing : Pacing) : Sifts pacing [] [] pacing
  /-- The first command has no payload. -/
  | plain {pacing last : Pacing} {outgoing : Outgoing} {rest passed : List Outgoing}
      (hpayload : outgoing.hasPayload = false) (h : Sifts pacing rest passed last) :
      Sifts pacing (outgoing :: rest) (outgoing :: passed) last
  | passes {pacing next last : Pacing} {outgoing : Outgoing} {rest passed : List Outgoing}
      (hpayload : outgoing.hasPayload = true) (hthrottle : pacing.passUnreliable = (true, next))
      (h : Sifts next rest passed last) :
      Sifts pacing (outgoing :: rest) (outgoing :: passed) last
  | refused {pacing next last : Pacing} {outgoing : Outgoing} {rest passed : List Outgoing}
      (hpayload : outgoing.hasPayload = true) (hthrottle : pacing.passUnreliable = (false, next))
      (h : Sifts next rest passed last) : Sifts pacing (outgoing :: rest) passed last

theorem Pacing.Sifts.sublist {pacing last : Pacing} {tried passed : List Outgoing}
    (h : pacing.Sifts tried passed last) : passed.Sublist tried := by
  induction h with
  | nil => exact .slnil
  | plain _ _ ih => exact ih.cons_cons _
  | passes _ _ _ ih => exact ih.cons_cons _
  | refused _ _ _ ih => exact ih.cons _

namespace Peer

/-- A prefix of the queue leaves it, and what of it the throttle lets pass goes out. -/
theorem sendUnreliable_eq (peer : Peer) (draft : Draft) (queue : List Outgoing) :
    ∃ tried passed kept pacing, queue = tried ++ kept ∧ peer.pacing.Sifts tried passed pacing ∧
      (peer.sendUnreliable draft queue).1.commands = draft.commands ++ passed.map (·.command) ∧
      (peer.sendUnreliable draft queue).2 = { peer with unreliable := kept, pacing := pacing } := by
  induction queue generalizing peer draft with
  | nil => exact ⟨[], [], [], peer.pacing, rfl, .nil _, by simp [sendUnreliable], rfl⟩
  | cons outgoing rest ih =>
    unfold sendUnreliable
    split
    · split
      · rename_i hpayload
        dsimp only
        split
        · rename_i hpasses
          obtain ⟨tried, passed, kept, pacing, hqueue, hsifts, hcommands, hafter⟩ :=
            ih { peer with pacing := peer.pacing.passUnreliable.2 } (draft.push outgoing.command)
          refine ⟨outgoing :: tried, outgoing :: passed, kept, pacing,
            by rw [hqueue, List.cons_append], .passes hpayload (Prod.ext hpasses rfl) hsifts, ?_,
            hafter⟩
          rw [hcommands]
          simp [Draft.push]
        · rename_i hrefused
          obtain ⟨tried, passed, kept, pacing, hqueue, hsifts, hcommands, hafter⟩ :=
            ih { peer with pacing := peer.pacing.passUnreliable.2 } draft
          exact ⟨outgoing :: tried, passed, kept, pacing, by rw [hqueue, List.cons_append],
            .refused hpayload (Prod.ext (eq_false_of_ne_true hrefused) rfl) hsifts, hcommands,
            hafter⟩
      · rename_i hplain
        obtain ⟨tried, passed, kept, pacing, hqueue, hsifts, hcommands, hafter⟩ :=
          ih peer (draft.push outgoing.command)
        refine ⟨outgoing :: tried, outgoing :: passed, kept, pacing,
          by rw [hqueue, List.cons_append], .plain (eq_false_of_ne_true hplain) hsifts, ?_, hafter⟩
        rw [hcommands]
        simp [Draft.push]
    · exact ⟨[], [], outgoing :: rest, peer.pacing, rfl, .nil _, by simp, rfl⟩

theorem sendUnreliable_composes (peer : Peer) (draft : Draft) :
    ∃ commands, (peer.sendUnreliable draft peer.unreliable).1.commands =
        draft.commands ++ commands ∧
      Composes peer commands (peer.sendUnreliable draft peer.unreliable).2 := by
  obtain ⟨tried, passed, kept, pacing, hqueue, hsifts, hcommands, hafter⟩ :=
    peer.sendUnreliable_eq draft peer.unreliable
  refine ⟨passed.map (·.command), hcommands, ?_⟩
  rw [hafter]
  refine { Composes.refl peer with
    unreliable := ?_
    drawn := fun command hcommand ↦ .inr (.inl ?_) }
  · rw [hqueue]
    exact List.subset_append_right _ _
  · obtain ⟨outgoing, hmem, rfl⟩ := List.mem_map.mp hcommand
    rw [hqueue]
    exact ⟨outgoing, List.mem_append_left _ (hsifts.sublist.subset hmem), rfl⟩

/-- A command that is given up with its timeout doubled is the same command. -/
theorem backedOff_command (overdue : List Outgoing) :
    (overdue.map (·.backedOff)).map (·.command) = overdue.map (·.command) := by
  rw [List.map_map]
  rfl

theorem refreshTimeout_eq (peer : Peer) :
    ∃ nextTimeout, refreshTimeout peer = { peer with nextTimeout := nextTimeout } := by
  unfold refreshTimeout
  split <;> exact ⟨_, rfl⟩

/-- Commands that are put first one after the other, from the last one on, keep their order. -/
theorem foldl_putFirst_reverse (overdue : List Outgoing) (peer : Peer) :
    overdue.reverse.foldl putFirst peer = { peer with reliable := overdue ++ peer.reliable } := by
  rw [List.foldl_reverse]
  induction overdue with
  | nil => rfl
  | cons outgoing rest ih => rw [List.foldr_cons, ih, putFirst, List.cons_append]

/-- What the pass makes of a peer when nothing is given up. -/
def parted (now : Stamp) (queue overdue : List Outgoing) (peer : Peer) : Peer :=
  let expired := queue.filter (·.isOverdue now)
  { peer with
    sent := peer.sent ++ queue.filter (!·.isOverdue now)
    reliable := overdue ++ expired.map (·.backedOff) ++ peer.reliable
    inTransit := expired.foldl (fun total outgoing ↦
      Word.subSat total outgoing.payloadLength) peer.inTransit
    traffic := { peer.traffic with
      commandsLost := peer.traffic.commandsLost + expired.length }
    lossMeter := expired.foldl (fun meter _ ↦ LossMeter.recordLost meter) peer.lossMeter }

theorem parted_cons_of_early {outgoing : Outgoing} (hearly : outgoing.isOverdue now = false)
    (rest overdue : List Outgoing) (peer : Peer) :
    parted now (outgoing :: rest) overdue peer =
      parted now rest overdue { peer with sent := peer.sent ++ [outgoing] } := by
  simp only [parted, List.filter_cons, hearly, Bool.not_false, Bool.false_eq_true, if_true,
    if_false, List.append_assoc, List.singleton_append]

theorem parted_cons_of_late {outgoing : Outgoing} (hlate : outgoing.isOverdue now = true)
    (rest overdue : List Outgoing) (peer : Peer) :
    parted now (outgoing :: rest) overdue peer =
      parted now rest (overdue ++ [outgoing.backedOff]) (peer.lose outgoing) := by
  simp only [parted, lose, List.filter_cons, hlate, Bool.not_true, Bool.false_eq_true, if_true,
    if_false, List.map_cons, List.append_assoc, List.nil_append, List.cons_append, List.foldl_cons,
    List.length_cons, Nat.add_assoc, Nat.add_comm 1]

/-- From any command on, the pass parts what is left of the flight by whether it is overdue. -/
theorem part_eq (now : Stamp) (queue overdue : List Outgoing) (peer : Peer) :
    part now queue overdue peer =
      if (queue.filter (·.isOverdue now)).any (·.isExhausted) then (true, peer.reset)
      else (false, refreshTimeout (parted now queue overdue peer)) := by
  induction queue generalizing overdue peer with
  | nil =>
    rw [part, foldl_putFirst_reverse]
    simp only [parted, List.filter_nil, List.any_nil, Bool.false_eq_true, if_false, List.map_nil,
      List.append_nil, List.foldl_nil, List.length_nil, Nat.add_zero]
  | cons outgoing rest ih =>
    cases hoverdue : outgoing.isOverdue now with
    | false =>
      have hearly : Stamp.distance now outgoing.sentTime < outgoing.timeout :=
        UInt32.not_le.mp (of_decide_eq_false hoverdue)
      have hfilter : (outgoing :: rest).filter (·.isOverdue now) =
          rest.filter (·.isOverdue now) := by
        rw [List.filter_cons, hoverdue, if_neg Bool.false_ne_true]
      rw [part, if_pos hearly, ih, hfilter, parted_cons_of_early hoverdue]
      rfl
    | true =>
      have hlate : ¬ Stamp.distance now outgoing.sentTime < outgoing.timeout :=
        UInt32.not_lt.mpr (of_decide_eq_true hoverdue)
      have hfilter : (outgoing :: rest).filter (·.isOverdue now) =
          outgoing :: rest.filter (·.isOverdue now) := List.filter_cons_of_pos hoverdue
      rw [part, if_neg hlate, hfilter, List.any_cons, Outgoing.isExhausted]
      by_cases hexhausted : outgoing.timeoutLimit ≤ outgoing.timeout
      · rw [if_pos hexhausted, decide_eq_true hexhausted, Bool.true_or, if_pos rfl]
      · rw [if_neg hexhausted, ih, decide_eq_false hexhausted, Bool.false_or,
          parted_cons_of_late hoverdue]
        rfl

/-- The pass parts a whole flight by whether a command is overdue, unless it gives the connection
up. -/
theorem checkTimeouts_eq_ite (peer : Peer) (now : Stamp) :
    peer.checkTimeouts now =
      if (peer.sent.filter (·.isOverdue now)).any (·.isExhausted) then (true, peer.reset)
      else (false, refreshTimeout { peer with
        sent := peer.sent.filter (!·.isOverdue now)
        reliable := (peer.sent.filter (·.isOverdue now)).map (·.backedOff) ++ peer.reliable
        inTransit := (peer.sent.filter (·.isOverdue now)).foldl (fun total outgoing ↦
          Word.subSat total outgoing.payloadLength) peer.inTransit
        traffic := { peer.traffic with
          commandsLost := peer.traffic.commandsLost +
            (peer.sent.filter (·.isOverdue now)).length }
        lossMeter := (peer.sent.filter (·.isOverdue now)).foldl
          (fun meter _ ↦ LossMeter.recordLost meter) peer.lossMeter }) :=
  part_eq now peer.sent [] { peer with sent := [] }

theorem checkTimeouts_gaveUp {peer after : Peer} {now : Stamp}
    (h : peer.checkTimeouts now = (true, after)) : after = peer.reset := by
  rw [checkTimeouts_eq_ite] at h
  split at h
  · exact (Prod.mk.inj h).2.symm
  · cases (Prod.mk.inj h).1

/-- Overdue commands go back to those that wait, unless the connection is given up. -/
theorem checkTimeouts_eq {peer after : Peer} {now : Stamp}
    (h : peer.checkTimeouts now = (false, after)) :
    ∃ nextTimeout inTransit commandsLost lossMeter, after = { peer with
      sent := peer.sent.filter (!·.isOverdue now)
      reliable := (peer.sent.filter (·.isOverdue now)).map (·.backedOff) ++ peer.reliable
      nextTimeout := nextTimeout
      inTransit := inTransit
      traffic := { peer.traffic with commandsLost := commandsLost }
      lossMeter := lossMeter } := by
  rw [checkTimeouts_eq_ite] at h
  split at h
  · cases h
  · obtain ⟨nextTimeout, hrefreshed⟩ := refreshTimeout_eq _
    rw [← (Prod.mk.inj h).2, hrefreshed]
    exact ⟨_, _, _, _, rfl⟩

/-- The connection goes on only where no overdue command has been sent as often as it may. -/
theorem checkTimeouts_spares {peer after : Peer} {now : Stamp}
    (h : peer.checkTimeouts now = (false, after)) :
    ∀ outgoing ∈ peer.sent.filter (·.isOverdue now), outgoing.isExhausted = false := by
  rw [checkTimeouts_eq_ite] at h
  split at h
  · cases h
  · rename_i hspared
    intro outgoing hmem
    exact eq_false_of_ne_true fun hexhausted ↦
      hspared (List.any_eq_true.mpr ⟨outgoing, hmem, hexhausted⟩)

theorem checkTimeouts_composes {peer after : Peer} {now : Stamp}
    (h : peer.checkTimeouts now = (false, after)) : Composes peer [] after := by
  obtain ⟨_, _, _, _, rfl⟩ := checkTimeouts_eq h
  have hsame (command : Command) : command ∈ Peer.outstanding { peer with
      sent := peer.sent.filter (!·.isOverdue now)
      reliable := (peer.sent.filter (·.isOverdue now)).map (·.backedOff) ++ peer.reliable } ↔
        command ∈ peer.outstanding := by
    rw [mem_outstanding, mem_outstanding, List.map_append, backedOff_command, List.mem_append,
      ← or_assoc]
    apply or_congr_left
    simp only [List.mem_map, List.mem_filter]
    constructor
    · rintro (⟨outgoing, ⟨hmem, -⟩, heq⟩ | ⟨outgoing, ⟨hmem, -⟩, heq⟩) <;>
        exact ⟨outgoing, hmem, heq⟩
    · rintro ⟨outgoing, hmem, heq⟩
      cases hoverdue : outgoing.isOverdue now with
      | true => exact .inr ⟨outgoing, ⟨hmem, hoverdue⟩, heq⟩
      | false => exact .inl ⟨outgoing, ⟨hmem, by rw [hoverdue]; rfl⟩, heq⟩
  exact { Composes.refl peer with
    kept := fun command hcommand ↦ (hsame command).mpr hcommand
    outstanding := fun command hcommand ↦ .inl ((hsame command).mp hcommand) }

theorem ping_composes (peer : Peer) : Composes peer [] peer.ping := by
  unfold ping
  split
  · rw [queueControl_eq]
    refine { Composes.refl peer with kept := ?_, outstanding := ?_ }
    · intro command hcommand
      rw [mem_outstanding] at hcommand ⊢
      rw [List.map_append, List.mem_append]
      exact hcommand.imp_right .inl
    · intro command hcommand
      rw [mem_outstanding, List.map_append, List.mem_append, ← or_assoc] at hcommand
      rcases hcommand with hcommand | hcommand
      · exact .inl (mem_outstanding.mpr hcommand)
      · rw [List.map_singleton, List.mem_singleton] at hcommand
        rw [hcommand]
        exact .inr ⟨rfl, rfl⟩
  · exact Composes.refl peer

theorem fillReliable_composes (peer : Peer) (draft : Draft) (now : Stamp) :
    ∃ commands, (peer.fillReliable draft now).1.commands = draft.commands ++ commands ∧
      Composes peer commands (peer.fillReliable draft now).2 := by
  unfold fillReliable
  split
  · exact peer.sendReliable_composes draft now
  · split
    · obtain ⟨commands, hcommands, hcomposes⟩ := peer.ping.sendReliable_composes draft now
      exact ⟨commands, hcommands, peer.ping_composes.trans hcomposes⟩
    · exact ⟨[], (List.append_nil _).symm, Composes.refl peer⟩

/-! ## Whole datagrams -/

/-- What filling a draft comes to once the acknowledgements are in it. The reliable commands are
added if there is room and the connection is not given up, and the unreliable ones at last. -/
inductive Loads (first : Draft) (middle : Peer) (now : Stamp) (check : Bool) :
    Option Draft → Peer → Prop where
  | gaveUp (hcheck : check = true) (hdue : middle.timeoutsDue now = true) :
      Loads first middle now check none middle.reset
  /-- There is room for reliable commands, and none of them is found to be given up. -/
  | roomy {kept : Peer} (hroom : first.hasRoom = true)
      (hlooks : (check && middle.timeoutsDue now) = false ∧ kept = middle ∨
        (check && middle.timeoutsDue now) = true ∧ middle.checkTimeouts now = (false, kept)) :
      Loads first middle now check
        (some ((kept.fillReliable first now).2.sendUnreliable (kept.fillReliable first now).1
          (kept.fillReliable first now).2.unreliable).1)
        ((kept.fillReliable first now).2.sendUnreliable (kept.fillReliable first now).1
          (kept.fillReliable first now).2.unreliable).2
  /-- The acknowledgements have taken the room. -/
  | full (hfull : first.hasRoom = false) :
      Loads first middle now check (some (middle.sendUnreliable first middle.unreliable).1)
        (middle.sendUnreliable first middle.unreliable).2

theorem fill_loads (peer : Peer) (now : Stamp) (check : Bool) :
    Loads (peer.sendAcknowledgements peer.draft peer.acknowledgements).1
      (peer.sendAcknowledgements peer.draft peer.acknowledgements).2 now check
      (peer.fill now check).1 (peer.fill now check).2 := by
  unfold fill
  generalize peer.sendAcknowledgements peer.draft peer.acknowledgements = acknowledged
  obtain ⟨first, middle⟩ := acknowledged
  dsimp only
  split
  · rename_i hroom
    cases hdue : check && middle.timeoutsDue now with
    | false => exact .roomy hroom (.inl ⟨hdue, rfl⟩)
    | true =>
      obtain ⟨hcheck, htimeouts⟩ := Bool.and_eq_true_iff.mp hdue
      cases hlooked : middle.checkTimeouts now with
      | mk gaveUp kept =>
        cases gaveUp with
        | true =>
          cases checkTimeouts_gaveUp hlooked
          exact .gaveUp hcheck htimeouts
        | false => exact .roomy hroom (.inr ⟨hdue, hlooked⟩)
  · rename_i hfull
    exact .full (by simpa using hfull)

/-- A connection is given up, and forgotten, only where overdue commands are looked for, and only
after a command was sent. -/
theorem fill_eq_none {peer after : Peer} {now : Stamp} {check : Bool}
    (h : peer.fill now check = (none, after)) :
    after = peer.reset ∧ check = true ∧ peer.sent ≠ [] := by
  obtain ⟨_, _, _, -, -, -, hmiddle⟩ :=
    peer.sendAcknowledgements_eq peer.draft peer.acknowledgements
  have hloads := peer.fill_loads now check
  rw [h, hmiddle] at hloads
  cases hloads with
  | gaveUp hcheck hdue =>
    refine ⟨rfl, hcheck, fun hnone ↦ ?_⟩
    rw [timeoutsDue, hnone] at hdue
    cases hdue

/-- What relates a draft and a peer before and after each stage of filling, and can be put
together, relates them before and after the whole. -/
theorem fill_induction {peer after : Peer} {now : Stamp} {check : Bool} {draft : Draft}
    (R : Draft → Peer → Draft → Peer → Prop)
    (htrans : ∀ {first second third : Draft} {peer middle after : Peer},
      R first peer second middle → R second middle third after → R first peer third after)
    (hacknowledgements : ∀ (draft : Draft) (peer : Peer), R draft peer
      (peer.sendAcknowledgements draft peer.acknowledgements).1
      (peer.sendAcknowledgements draft peer.acknowledgements).2)
    (htimeouts : ∀ {draft : Draft} {peer after : Peer},
      peer.checkTimeouts now = (false, after) → R draft peer draft after)
    (hreliable : ∀ (draft : Draft) (peer : Peer),
      R draft peer (peer.fillReliable draft now).1 (peer.fillReliable draft now).2)
    (hunreliable : ∀ (draft : Draft) (peer : Peer), R draft peer
      (peer.sendUnreliable draft peer.unreliable).1 (peer.sendUnreliable draft peer.unreliable).2)
    (h : peer.fill now check = (some draft, after)) : R peer.draft peer draft after := by
  have hfirst := hacknowledgements peer.draft peer
  have hloads := peer.fill_loads now check
  rw [h] at hloads
  cases hloads with
  | @roomy kept _ hlooks =>
    have hlast := htrans (hreliable (peer.sendAcknowledgements peer.draft peer.acknowledgements).1
      kept) (hunreliable _ _)
    rcases hlooks with ⟨-, rfl⟩ | ⟨-, hlooked⟩
    · exact htrans hfirst hlast
    · exact htrans (htrans hfirst (htimeouts hlooked)) hlast
  | full => exact htrans hfirst (hunreliable _ _)

/-- A draft that is filled is filled with what is drawn from the queues. -/
theorem fill_composes {peer after : Peer} {now : Stamp} {check : Bool} {draft : Draft}
    (h : peer.fill now check = (some draft, after)) : Composes peer draft.commands after := by
  suffices ∃ commands, draft.commands = peer.draft.commands ++ commands ∧
      Composes peer commands after by
    obtain ⟨commands, hcommands, hcomposes⟩ := this
    rw [hcommands]
    exact hcomposes
  refine fill_induction (fun first peer second after ↦ ∃ commands,
    second.commands = first.commands ++ commands ∧ Composes peer commands after) ?_
    (fun draft peer ↦ peer.sendAcknowledgements_composes draft)
    (fun hlooked ↦ ⟨[], (List.append_nil _).symm, checkTimeouts_composes hlooked⟩)
    (fun draft peer ↦ peer.fillReliable_composes draft now)
    (fun draft peer ↦ peer.sendUnreliable_composes draft) h
  rintro _ _ _ _ _ _ ⟨first, hfirst, hcomposes⟩ ⟨second, hsecond, hnext⟩
  exact ⟨first ++ second, by rw [hsecond, hfirst, List.append_assoc], hcomposes.trans hnext⟩

/-- A datagram is read as it was composed, with and without its trailer: as a datagram of its
connection that holds these commands. -/
theorem content_of_reads {peer : Peer} {commands others : List Command} {now : Stamp}
    {datagram : Bytes} {header : Header} (h : peer.encodeDatagram commands now = .ok datagram)
    (hreads : Datagram.Reads peer.settings.checksums datagram header others) :
    header.challenge = peer.challenge ∧ others = commands := by
  obtain ⟨content, hcontent, hdecode⟩ := hreads
  unfold encodeDatagram at h
  cases hbytes : Datagram.encode (peer.header now) commands with
  | error error =>
    rw [hbytes] at h
    cases h
  | ok bytes =>
    rw [hbytes] at h
    have hread : ∃ rest, content = bytes ++ rest := by
      cases hchecksums : peer.settings.checksums with
      | false =>
        rw [hchecksums] at h hcontent
        cases h
        rcases hcontent with rfl | ⟨hfalse, -⟩
        · exact ⟨[], (List.append_nil _).symm⟩
        · cases hfalse
      | true =>
        rw [hchecksums] at h hcontent
        cases h
        rcases hcontent with rfl | ⟨-, hstrip⟩
        · exact ⟨_, rfl⟩
        · rw [if_pos rfl, Checksum.strip_append] at hstrip
          cases hstrip
          exact ⟨[], (List.append_nil _).symm⟩
    obtain ⟨rest, rfl⟩ := hread
    rw [Datagram.decode_encode rest hbytes] at hdecode
    cases hdecode
    exact ⟨rfl, rfl⟩

/-- A datagram is read as the commands that it was composed of, with and without its trailer. -/
theorem eq_of_reads {peer : Peer} {commands others : List Command} {now : Stamp}
    {datagram : Bytes} {header : Header} (h : peer.encodeDatagram commands now = .ok datagram)
    (hreads : Datagram.Reads peer.settings.checksums datagram header others) :
    others = commands := (content_of_reads h hreads).2

/-- What composing can come to. A datagram that is finished is noted in the accounts of the peer
and nowhere else. -/
inductive Yields (peer : Peer) (now : Stamp) (check : Bool) :
    Except EncodeError Composition → Peer → Prop where
  /-- There is no connection any more. -/
  | idle (hover : peer.state.isActive = false) : Yields peer now check (.ok .nothing) peer
  | gaveUp {after : Peer} (hactive : peer.state.isActive = true)
      (hfill : peer.fill now check = (none, after)) : Yields peer now check (.ok .timedOut) after
  | nothing {draft : Draft} {after : Peer} (hactive : peer.state.isActive = true)
      (hfill : peer.fill now check = (some draft, after)) (hnone : draft.commands = []) :
      Yields peer now check (.ok .nothing) after
  /-- A command cannot be laid out. -/
  | failed {draft : Draft} {after : Peer} {meter : LossMeter} {traffic : Traffic}
      {error : EncodeError} (hactive : peer.state.isActive = true)
      (hfill : peer.fill now check = (some draft, after))
      (hfails : after.encodeDatagram draft.commands now = .error error) :
      Yields peer now check (.error error) { after with lossMeter := meter, traffic := traffic }
  | datagram {draft : Draft} {after : Peer} {meter : LossMeter} {traffic : Traffic} {bytes : Bytes}
      (hactive : peer.state.isActive = true) (hfill : peer.fill now check = (some draft, after))
      (hsome : draft.commands ≠ [])
      (hbytes : after.encodeDatagram draft.commands now = .ok bytes) :
      Yields peer now check (.ok (.datagram bytes))
        { after with lossMeter := meter, traffic := traffic, lastSend := now }

theorem compose_yields (peer : Peer) (now : Stamp) (check : Bool) :
    Yields peer now check (peer.compose now check).1 (peer.compose now check).2 := by
  unfold compose
  split
  · rename_i hover
    exact .idle (by simpa using hover)
  · rename_i hgoes
    have hactive : peer.state.isActive = true := by simpa using hgoes
    cases hfill : peer.fill now check with
    | mk filled after =>
      cases filled with
      | none => exact .gaveUp hactive hfill
      | some draft =>
        dsimp only
        split
        · rename_i hnone
          exact .nothing hactive hfill (List.isEmpty_iff.mp hnone)
        · rename_i hsome
          unfold finish
          dsimp only
          split
          · rename_i hfails
            exact .failed hactive hfill hfails
          · rename_i hbytes
            exact .datagram hactive hfill (by simpa using hsome) hbytes

/-- A connection that is over composes nothing. -/
theorem compose_of_not_active {peer : Peer} {now : Stamp} {check : Bool}
    (h : peer.state.isActive = false) : peer.compose now check = (.ok .nothing, peer) := by
  rw [compose, h, Bool.not_false, if_pos rfl]

/-- Composing gives the connection up or draws the commands of the datagram, if it brings
one. -/
theorem compose_composes (peer : Peer) (now : Stamp) (check : Bool) :
    (peer.compose now check).2.state = .disconnected ∨ ∃ commands,
      Composes peer commands (peer.compose now check).2 ∧
        ∀ datagram, (peer.compose now check).1 = .ok (.datagram datagram) →
          ∀ header others, Datagram.Reads peer.settings.checksums datagram header others →
            others = commands := by
  have hyields := peer.compose_yields now check
  generalize peer.compose now check = composed at hyields
  obtain ⟨result, last⟩ := composed
  cases hyields with
  | idle => exact .inr ⟨[], Composes.refl _, fun _ h ↦ by cases h⟩
  | gaveUp _ hfill =>
    rw [(fill_eq_none hfill).1]
    exact .inl rfl
  | nothing _ hfill => exact .inr ⟨_, fill_composes hfill, fun _ h ↦ by cases h⟩
  | failed _ hfill => exact .inr ⟨_, { fill_composes hfill with }, fun _ h ↦ by cases h⟩
  | datagram _ hfill _ hbytes =>
    have hcomposes := fill_composes hfill
    refine .inr ⟨_, { hcomposes with }, fun datagram hdatagram header others hreads ↦ ?_⟩
    cases hdatagram
    apply eq_of_reads hbytes
    rwa [hcomposes.settings]

/-- A connection is given up only where overdue commands are looked for; otherwise composing
leaves it where it stands, or ends it by confirming the departure of the other end. -/
theorem compose_state (peer : Peer) (now : Stamp) (check : Bool) :
    (peer.compose now check).1 = .ok .timedOut ∧ check = true ∨
      (peer.compose now check).1 ≠ .ok .timedOut ∧
        ((peer.compose now check).2.state = peer.state ∨
          (peer.compose now check).2.state = .zombie) := by
  have hyields := peer.compose_yields now check
  generalize peer.compose now check = composed at hyields
  obtain ⟨result, last⟩ := composed
  cases hyields with
  | idle => exact .inr ⟨fun h ↦ (by cases h), .inl rfl⟩
  | gaveUp _ hfill => exact .inl ⟨rfl, (fill_eq_none hfill).2.1⟩
  | nothing _ hfill | failed _ hfill | datagram _ hfill =>
    have hstate := (fill_composes hfill).state
    exact .inr ⟨fun h ↦ (by cases h), hstate⟩

end Peer

end ReliableDatagram
