import ReliableDatagram.Proofs.Loss
import ReliableDatagram.Proofs.Pacing.Admission
import ReliableDatagram.Proofs.Peer.Bounds

/-!
# What a peer measures

A peer measures the round trip and the loss. Little of what happens to it touches these: unreliable
commands turn the admission counter, an acknowledgement is a sample, throttle parameters and limits
are set, a datagram that is finished can end an interval of the loss, and a connection that begins
or is over is measured anew. So the pacing of a peer is always one that a fresh pacing comes to,
and the loss that it reports is a part of the whole.
-/

namespace ReliableDatagram

/-- The commands that meet the throttle turn the counter, one for each payload. -/
theorem Pacing.Sifts.last_eq {pacing last : Pacing} {tried passed : List Outgoing}
    (h : pacing.Sifts tried passed last) :
    last = (List.replicate (tried.countP (·.hasPayload)) .pass).foldl perform pacing := by
  induction h with
  | nil pacing => rfl
  | plain hpayload _ ih => rw [List.countP_cons_of_neg (Bool.eq_false_iff.mp hpayload), ih]
  | passes hpayload hthrottle _ ih | refused hpayload hthrottle _ ih =>
    rw [List.countP_cons_of_pos hpayload, List.replicate_succ, List.foldl_cons, perform, hthrottle,
      ih]

namespace Peer

variable {peer middle after : Peer} {header : Header} {command : Command} {context : Context}
  {event : Option PeerEvent} {now : Stamp} {check : Bool} {draft : Draft}

/-- What a peer has measured: its pacing, and the loss with its deviation. -/
def gauge (peer : Peer) : Pacing × UInt32 × UInt32 :=
  (peer.pacing, peer.traffic.loss, peer.traffic.lossVariance)

/-! ## What leaves the gauges as they are -/

theorem Enqueues.gauge (h : Enqueues peer after) : after.gauge = peer.gauge := by
  rw [h.frame]
  rfl

@[simp] theorem gauge_queueControl (peer : Peer) (body : Body) :
    (peer.queueControl body).gauge = peer.gauge := (peer.queueControl_enqueues body).gauge

@[simp] theorem gauge_queueAcknowledgement (peer : Peer) (command : Command) (sentTime : Stamp) :
    (peer.queueAcknowledgement command sentTime).gauge = peer.gauge := by
  obtain ⟨_, _, heq, -⟩ := peer.queueAcknowledgement_eq command sentTime
  rw [heq]
  rfl

theorem gauge_send {channel : UInt8} {packet : Packet}
    (h : peer.send channel packet = .ok after) : after.gauge = peer.gauge := (send_enqueues h).gauge

theorem gauge_ping (peer : Peer) : peer.ping.gauge = peer.gauge := peer.ping_enqueues.gauge

theorem Leaves.gauge (h : Leaves peer after) : after.gauge = peer.gauge := by
  rw [h.frame]
  rfl

theorem gauge_receive (peer : Peer) (channel : UInt8) :
    (peer.receive channel).2.gauge = peer.gauge := by
  unfold receive
  split <;> rfl

theorem gauge_removeSent (peer : Peer) (sequence : UInt32) (channel : UInt8) :
    (peer.removeSent sequence channel).2.gauge = peer.gauge := by
  obtain ⟨_, _, _, _, hremoved, -⟩ := peer.removeSent_eq sequence channel
  rw [hremoved]
  rfl

theorem gauge_removeConnect (peer : Peer) : peer.removeConnect.gauge = peer.gauge := by
  obtain ⟨_, _, _, _, hremoved⟩ := peer.removeConnect_eq
  rw [hremoved]
  rfl

theorem gauge_sendAcknowledgements (peer : Peer) (draft : Draft)
    (waiting : List Acknowledgement) :
    (peer.sendAcknowledgements draft waiting).2.gauge = peer.gauge := by
  obtain ⟨_, _, _, -, -, -, hafter⟩ := peer.sendAcknowledgements_eq draft waiting
  rw [hafter]
  rfl

theorem gauge_fillReliable (peer : Peer) (draft : Draft) (now : Stamp) :
    (peer.fillReliable draft now).2.gauge = peer.gauge := by
  have hsent (peer : Peer) (queue : List Outgoing) :
      (peer.sendReliable draft now queue).2.gauge = peer.gauge := by
    obtain ⟨_, _, -, -, _, _, _, hafter⟩ := peer.sendReliable_eq draft now queue
    rw [hafter]
    rfl
  unfold fillReliable
  split
  · exact hsent ..
  · split
    · exact (hsent ..).trans peer.gauge_ping
    · rfl

/-- Overdue commands are counted as lost, but the loss is not sampled yet. -/
theorem gauge_checkTimeouts (h : peer.checkTimeouts now = (false, after)) :
    after.gauge = peer.gauge := by
  obtain ⟨_, _, _, _, rfl⟩ := checkTimeouts_eq h
  rfl

/-! ## One step -/

inductive Paces (peer after : Peer) : Prop where
  | passes (count : ℕ)
      (hpacing : after.pacing = (List.replicate count .pass).foldl Pacing.perform peer.pacing)
  | performs (action : Pacing.Action) (hpacing : after.pacing = peer.pacing.perform action)
  /-- The connection is over, or one is asked for. -/
  | restarts (hpacing : after.pacing = .start peer.settings)
  /-- A connection is granted, with the throttle parameters of the other end. -/
  | grants (parameters : ThrottleParameters)
      (hpacing : after.pacing = (Pacing.start peer.settings).perform (.configure parameters))

structure Measures (peer after : Peer) : Prop where
  pacing : Paces peer after
  loss : peer.traffic.Scaled peer.settings.lossScale → after.traffic.Scaled peer.settings.lossScale

theorem Paces.congr (h : Paces peer middle) (hpacing : after.pacing = middle.pacing) :
    Paces peer after := by
  cases h with
  | passes count hpaces => exact .passes count (hpacing.trans hpaces)
  | performs action hpaces => exact .performs action (hpacing.trans hpaces)
  | restarts hpaces => exact .restarts (hpacing.trans hpaces)
  | grants parameters hpaces => exact .grants parameters (hpacing.trans hpaces)

theorem scaled_of_gauge {scale : UInt32} (hscaled : peer.traffic.Scaled scale)
    (hgauge : after.gauge.2 = peer.gauge.2) : after.traffic.Scaled scale where
  loss_le := by
    rw [show after.traffic.loss = peer.traffic.loss from congrArg Prod.fst hgauge]
    exact hscaled.loss_le
  lossVariance_le := by
    rw [show after.traffic.lossVariance = peer.traffic.lossVariance from congrArg Prod.snd hgauge]
    exact hscaled.lossVariance_le

theorem Measures.congr (h : Measures peer middle) (hgauge : after.gauge = middle.gauge) :
    Measures peer after :=
  ⟨h.pacing.congr (congrArg Prod.fst hgauge), fun hscaled ↦
    scaled_of_gauge (h.loss hscaled) (congrArg Prod.snd hgauge)⟩

theorem Measures.of_passes {count : ℕ} (hgauge : after.gauge =
      ((List.replicate count .pass).foldl Pacing.perform peer.pacing, peer.gauge.2)) :
    Measures peer after :=
  ⟨.passes count (congrArg Prod.fst hgauge), fun hscaled ↦
    scaled_of_gauge hscaled (by rw [hgauge])⟩

theorem Measures.of_gauge (hgauge : after.gauge = peer.gauge) : Measures peer after :=
  @Measures.of_passes _ _ 0 hgauge

/-- All is measured anew. -/
theorem Measures.of_reset (hgauge : after.gauge = peer.reset.gauge) : Measures peer after :=
  ⟨.restarts (congrArg Prod.fst hgauge), fun _ ↦
    scaled_of_gauge ⟨UInt32.zero_le, UInt32.zero_le⟩ (congrArg Prod.snd hgauge)⟩

theorem Measures.of_perform (action : Pacing.Action)
    (hgauge : after.gauge = (peer.pacing.perform action, peer.gauge.2)) : Measures peer after :=
  ⟨.performs action (congrArg Prod.fst hgauge), fun hscaled ↦
    scaled_of_gauge hscaled (by rw [hgauge])⟩

/-! ## Composing -/

theorem sendUnreliable_measures (peer : Peer) (draft : Draft) (queue : List Outgoing) :
    ∃ count, (peer.sendUnreliable draft queue).2.gauge =
      ((List.replicate count .pass).foldl Pacing.perform peer.pacing, peer.gauge.2) := by
  obtain ⟨tried, _, _, _, -, hsifts, -, hafter⟩ := peer.sendUnreliable_eq draft queue
  rw [hafter]
  exact ⟨tried.countP (·.hasPayload), congrArg (·, peer.gauge.2) hsifts.last_eq⟩

/-- Filling a draft asks the throttle for each payload, and measures nothing. -/
theorem fill_measures (h : peer.fill now check = (some draft, after)) :
    ∃ count, after.gauge =
      ((List.replicate count .pass).foldl Pacing.perform peer.pacing, peer.gauge.2) := by
  have hacknowledged := peer.gauge_sendAcknowledgements peer.draft peer.acknowledgements
  have hloads := peer.fill_loads now check
  rw [h] at hloads
  have hsifted {other : Peer} {draft : Draft} (hgauge : other.gauge = peer.gauge) :
      ∃ count, (other.sendUnreliable draft other.unreliable).2.gauge =
        ((List.replicate count .pass).foldl Pacing.perform peer.pacing, peer.gauge.2) := by
    have hpacing : other.pacing = peer.pacing := congrArg Prod.fst hgauge
    rw [← hgauge, ← hpacing]
    exact other.sendUnreliable_measures draft _
  cases hloads with
  | roomy _ hlooks =>
    refine hsifted ((gauge_fillReliable ..).trans ?_)
    rcases hlooks with ⟨-, rfl⟩ | ⟨-, hlooked⟩
    · exact hacknowledged
    · exact (gauge_checkTimeouts hlooked).trans hacknowledged
  | full => exact hsifted hacknowledged

/-- A datagram that is finished leaves the pacing, and the loss is sampled if it is time. -/
theorem finish_measures (peer : Peer) (draft : Draft) (now : Stamp) :
    (peer.finish draft now).2.pacing = peer.pacing ∧
      (peer.traffic.Scaled peer.settings.lossScale →
        (peer.finish draft now).2.traffic.Scaled peer.settings.lossScale) := by
  have hupdated : peer.traffic.Scaled peer.settings.lossScale →
      (peer.lossMeter.update now peer.traffic peer.settings).2.2.Scaled
        peer.settings.lossScale := by
    intro hscaled
    generalize hupdate : peer.lossMeter.update now peer.traffic peer.settings = updated
    obtain ⟨folded, next, traffic⟩ := updated
    cases folded with
    | false =>
      obtain ⟨-, -, rfl⟩ := LossMeter.update_waits hupdate
      exact hscaled
    | true =>
      obtain ⟨-, -, rfl⟩ := LossMeter.update_folds hupdate
      rw [LossMeter.sample_eq]
      exact hscaled.foldLoss (lossShare_le _ _ _)
  unfold finish
  dsimp only
  split
  · exact ⟨rfl, hupdated⟩
  · exact ⟨rfl, fun hscaled ↦ ⟨(hupdated hscaled).loss_le, (hupdated hscaled).lossVariance_le⟩⟩

theorem compose_measures (peer : Peer) (now : Stamp) (check : Bool) :
    Measures peer (peer.compose now check).2 := by
  unfold compose
  split
  · exact .of_gauge rfl
  · cases hfill : peer.fill now check with
    | mk filled after =>
      cases filled with
      | none =>
        rw [(fill_eq_none hfill).1]
        exact .of_reset rfl
      | some draft =>
        obtain ⟨count, hgauge⟩ := fill_measures hfill
        have hfilled : Measures peer after := .of_passes hgauge
        dsimp only
        split
        · exact hfilled
        · have hsettings : after.settings = peer.settings := (fill_composes hfill).settings
          obtain ⟨hpacing, hloss⟩ := after.finish_measures draft now
          rw [hsettings] at hloss
          exact ⟨hfilled.pacing.congr hpacing, fun hscaled ↦ hloss (hfilled.loss hscaled)⟩

/-! ## Handling -/

/-- An acknowledgement that does not come early is a sample, unless the connection is over with
it. -/
theorem TakesAcknowledgement.pacing_eq {channel : UInt8} {sequence : UInt32} {sentTime : Stamp}
    (h : peer.TakesAcknowledgement channel sequence sentTime context event after)
    (hheard : Stamp.before context.now sentTime = false) (hstays : event ≠ some .disconnected) :
    after.pacing =
      peer.pacing.recordRoundTrip context.now (Stamp.distance context.now sentTime) := by
  obtain ⟨_, _, _, _, hremoved, -⟩ := (peer.heard sentTime context).removeSent_eq sequence channel
  cases h with
  | early hearly =>
    rw [hheard] at hearly
    cases hearly
  | departed => exact absurd rfl hstays
  | confirmed | noted =>
    rw [hremoved]
    rfl

theorem TakesAcknowledgement.measures {channel : UInt8} {sequence : UInt32} {sentTime : Stamp}
    (h : peer.TakesAcknowledgement channel sequence sentTime context event after) :
    Measures peer after := by
  have hsampled := (peer.heard sentTime context).gauge_removeSent sequence channel
  cases h with
  | early => exact .of_gauge rfl
  | departed => exact .of_reset rfl
  | confirmed | noted =>
    exact .of_perform (.record context.now (Stamp.distance context.now sentTime)) hsampled

theorem handleDisconnect_measures (peer : Peer) (confirm : Bool) :
    Measures peer (peer.handleDisconnect confirm) := by
  unfold handleDisconnect
  split
  · exact .of_gauge rfl
  · exact .of_gauge rfl
  · exact .of_gauge rfl
  · exact .of_gauge rfl
  · exact .of_reset rfl

theorem handle_measures (h : peer.handle header command context = .ok (event, after)) :
    Measures peer after := by
  obtain ⟨handled, hperform, -, hafter⟩ := handle_eq_ok h
  have hhandled : Measures peer handled.peer := by
    cases obeys_of_perform hperform with
    | nothing | taken | refused | limited => exact .of_gauge rfl
    | throttled => exact .of_perform (.configure _) rfl
    | acknowledged _ htakes => exact htakes.measures
    | answered _ hgrant =>
      cases hgrant with
      | unasked | refused => exact .of_gauge rfl
      | granted => exact .of_gauge peer.gauge_removeConnect
    | left => exact peer.handleDisconnect_measures _
  rcases hafter with rfl | ⟨-, -, rfl⟩
  · exact hhandled
  · exact hhandled.congr (gauge_queueAcknowledgement ..)

/-! ## All that can happen -/

theorem Operates.measures (h : Operates peer after) : Measures peer after := by
  cases h with
  | send hsend => exact .of_gauge (gauge_send hsend)
  | receive channel => exact .of_gauge (peer.gauge_receive channel)
  | ping => exact .of_gauge peer.gauge_ping
  | disconnect => exact .of_gauge peer.disconnect_leaves.gauge
  | disconnectNow => exact .of_gauge peer.disconnectNow_leaves.gauge
  | reset => exact .of_reset rfl
  | setThrottleLimit limit => exact .of_perform (.setLimit limit) rfl
  | receiveAny | abandon | relocate | recordReceived | markEpochs | resetTotals =>
    exact .of_gauge rfl

theorem Undergoes.measures (h : Undergoes peer after) : Measures peer after := by
  cases h with
  | connects hconnect =>
    obtain ⟨count, window, -, -, rfl⟩ := connect_eq hconnect
    exact .of_reset (gauge_queueControl ..)
  | accepts haccept =>
    obtain ⟨mtu, window, answered, -, -, -, rfl⟩ := accept_eq haccept
    have hgauge {granting : Peer} {body : Body} {command : Command} {sentTime : Stamp} :
        ((granting.queueControl body).queueAcknowledgement command sentTime).gauge =
          granting.gauge :=
      (gauge_queueAcknowledgement ..).trans (gauge_queueControl ..)
    refine Measures.congr ⟨.grants _ rfl, fun _ ↦ ?_⟩ hgauge
    exact ⟨UInt32.zero_le, UInt32.zero_le⟩
  | refuses => exact .of_gauge rfl
  | operates hoperates => exact hoperates.measures
  | configures parameters => exact .of_perform (.configure parameters) (gauge_queueControl ..)
  | announces => exact .of_gauge (gauge_queueControl ..)
  | composes now check => exact peer.compose_measures now check
  | handles hhandle => exact handle_measures hhandle

theorem Undergoes.settings_eq (h : Undergoes peer after) : after.settings = peer.settings := by
  have hupholds : Upholds peer.settings fun _ _ ↦ True :=
    ⟨trivial, fun _ ↦ trivial, fun _ _ ↦ trivial, fun _ _ _ ↦ trivial, fun _ _ ↦ trivial⟩
  exact (h.sized hupholds ⟨rfl, trivial⟩).keeps

variable {id : UInt16} {settings : Settings}

/-- What holds of a vacant peer and is kept whatever a peer undergoes holds of every peer. -/
theorem Reached.of_undergoes {holds : Peer → Prop} (hvacant : holds (Peer.vacant id settings))
    (hkeeps : ∀ peer after, Undergoes peer after → peer.settings = settings →
      holds peer → holds after)
    (h : Reached id settings peer) : holds peer := by
  have hstep {peer after : Peer} (hundergoes : Undergoes peer after)
      (ih : peer.settings = settings ∧ holds peer) : after.settings = settings ∧ holds after :=
    ⟨hundergoes.settings_eq.trans ih.1, hkeeps _ _ hundergoes ih.1 ih.2⟩
  have hboth : peer.settings = settings ∧ holds peer := by
    induction h with
    | vacant => exact ⟨rfl, hvacant⟩
    | act _ hact ih => exact hstep (undergoes_of_act hact) ih
    | operate _ hoperates ih => exact hstep (.operates hoperates) ih
  exact hboth.2

/-- The pacing of a peer is one that a fresh pacing comes to. -/
theorem Reached.pacing_eq (h : Reached id settings peer) :
    ∃ actions, peer.pacing = List.foldl Pacing.perform (.start settings) actions := by
  apply Reached.of_undergoes ?_ ?_ h
  · exact ⟨[], rfl⟩
  · rintro peer after hundergoes rfl ⟨actions, hactions⟩
    cases hundergoes.measures.pacing with
    | passes count hpacing =>
      rw [hpacing, hactions, ← List.foldl_append]
      exact ⟨_, rfl⟩
    | performs action hpacing =>
      exact ⟨actions ++ [action], by rw [hpacing, hactions, List.foldl_concat]⟩
    | restarts hpacing => exact ⟨[], hpacing⟩
    | grants parameters hpacing => exact ⟨[.configure parameters], hpacing⟩

/-- The loss that a peer reports and its deviation are parts of the whole. -/
theorem Reached.scaled (h : Reached id settings peer) :
    peer.traffic.Scaled settings.lossScale := by
  apply Reached.of_undergoes ?_ ?_ h
  · exact ⟨UInt32.zero_le, UInt32.zero_le⟩
  · rintro peer after hundergoes rfl hscaled
    exact hundergoes.measures.loss hscaled

/-- Of a full turn of unreliable payloads a peer puts the throttle's share into a datagram. -/
theorem Reached.sends_share (h : Reached id settings peer) (hscale : 1 ≤ settings.throttleScale)
    (hcoprime : Nat.Coprime settings.throttleStep.toNat settings.throttleScale.toNat)
    (hfits : settings.throttleScale.toNat + settings.throttleStep.toNat ≤ 2 ^ 32)
    (draft : Draft) :
    ∃ tried passed kept : List Outgoing, peer.unreliable = tried ++ kept ∧
      (peer.sendUnreliable draft peer.unreliable).2.unreliable = kept ∧
      (peer.sendUnreliable draft peer.unreliable).1.commands =
        draft.commands ++ passed.map (·.command) ∧
      (tried.countP (·.hasPayload) = settings.throttleScale.toNat →
        passed.countP (·.hasPayload) =
          min (peer.pacing.throttle.toNat + 1) settings.throttleScale.toNat) := by
  obtain ⟨actions, hactions⟩ := h.pacing_eq
  have hgeared : Pacing.Geared settings.throttleScale.toNat settings.throttleStep.toNat
      peer.pacing := by
    rw [hactions]
    exact (Pacing.geared_start hscale).foldl_perform hfits actions
  obtain ⟨tried, passed, kept, _, hqueue, hsifts, hcommands, hafter⟩ :=
    peer.sendUnreliable_eq draft peer.unreliable
  exact ⟨tried, passed, kept, hqueue, by rw [hafter], hcommands,
    hsifts.countP_passed_of_turn hgeared hfits hcoprime⟩

end Peer

end ReliableDatagram
