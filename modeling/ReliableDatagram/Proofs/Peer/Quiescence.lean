import ReliableDatagram.Proofs.Peer.Accounting
import ReliableDatagram.Proofs.Peer.Fitting

/-!
# Nothing is held up

Every command that waits fits a datagram of its own. So if composing brings nothing although
the connection is active, then each part of the empty draft says why: no acknowledgement waits,
the throttle has dropped the unreliable commands, and reliable ones wait for nothing but the
window. What fills the window is in flight, so that an acknowledgement or a timeout is still to
come.
-/

namespace ReliableDatagram

/-- The settings leave room in a datagram for any command without a payload, and for part of a
payload. -/
structure Settings.Ample (settings : Settings) : Prop where
  mtu : 60 ≤ settings.mtu.lower.toNat
  offer : 60 ≤ settings.defaultMtu.toNat
  commands : 1 ≤ settings.commandsPerDatagram
  buffers : 2 ≤ settings.buffersPerDatagram

namespace Peer

variable {peer after : Peer} {command : Command} {id : UInt16} {settings : Settings}

/-! ## Room for one command -/

/-- A peer whose datagrams have room for a brief command, and for one command of any kind. -/
structure Roomy (peer : Peer) : Prop where
  brief : Tag.connect.headerSize ≤ peer.room
  commands : 1 ≤ peer.settings.commandsPerDatagram
  buffers : 2 ≤ peer.settings.buffersPerDatagram

theorem Reached.roomy (h : Reached id settings peer) (hample : settings.Ample) : Roomy peer := by
  have hsized := h.sized (upholds_caps settings)
  have hmtu := hsized.sizes.1
  have hleast := hample.mtu
  have hoffer := hample.offer
  have hsize : peer.draft.size ≤ 16 := by
    rw [size_draft]
    split <;> decide
  refine ⟨?_, hsized.keeps ▸ hample.commands, hsized.keeps ▸ hample.buffers⟩
  rw [room, show Tag.connect.headerSize = 44 from rfl]
  omega

/-- An empty datagram has room for a command that is not too long. -/
theorem Roomy.fits (h : Roomy peer) (hlength : command.encodedLength ≤ peer.room) :
    peer.draft.fits command = true := by
  rw [Draft.fits, Draft.hasRoom, Bool.and_eq_true, Bool.and_eq_true, decide_eq_true_iff,
    decide_eq_true_iff, decide_eq_true_iff]
  exact ⟨⟨h.commands, h.buffers⟩, hlength⟩

/-! ## Drafts that stay empty -/

/-- If no acknowledgement is added although each of them fits, then there is none. -/
theorem sendAcknowledgements_idle {draft : Draft} {waiting : List Acknowledgement}
    (hfits : ∀ acknowledgement ∈ waiting, draft.fits acknowledgement.toCommand = true)
    (hnone : (peer.sendAcknowledgements draft waiting).1.commands = []) : waiting = [] := by
  cases waiting with
  | nil => rfl
  | cons acknowledgement rest =>
    rw [sendAcknowledgements, if_pos (hfits acknowledgement List.mem_cons_self)] at hnone
    exact absurd hnone (sendAcknowledgements_fills ..).ne_nil

/-- If no reliable command is added although each of them fits, then the window has no room for
the first of them. -/
theorem sendReliable_idle {draft : Draft} {now : Stamp} {queue : List Outgoing}
    (hfits : ∀ outgoing ∈ queue, draft.fits outgoing.command = true)
    (hnone : (peer.sendReliable draft now queue).1.commands = []) :
    peer.sendReliable draft now queue = (draft, { peer with reliable := queue }) ∧
      ∀ outgoing ∈ queue.head?, peer.exceedsWindow outgoing = true := by
  cases queue with
  | nil => exact ⟨rfl, nofun⟩
  | cons front rest =>
    have hfront := hfits front List.mem_cons_self
    cases hexceeds : peer.exceedsWindow front with
    | false =>
      rw [sendReliable, if_pos (by rw [hfront, hexceeds]; rfl)] at hnone
      exact absurd hnone (sendReliable_fills ..).ne_nil
    | true =>
      rw [sendReliable, if_neg (by rw [hfront, hexceeds]; decide)]
      refine ⟨rfl, fun outgoing hmem ↦ ?_⟩
      cases hmem
      exact hexceeds

/-- If no unreliable command is added although each of them fits, then the throttle has dropped
all of them. -/
theorem sendUnreliable_idle {draft : Draft} {queue : List Outgoing}
    (hfits : ∀ outgoing ∈ queue, draft.fits outgoing.command = true)
    (hnone : (peer.sendUnreliable draft queue).1.commands = []) :
    (peer.sendUnreliable draft queue).2.unreliable = [] := by
  induction queue generalizing peer with
  | nil => rfl
  | cons front rest ih =>
    obtain ⟨hfront, hrest⟩ := List.forall_mem_cons.mp hfits
    rw [sendUnreliable, if_pos hfront] at hnone ⊢
    split at hnone
    · dsimp only at hnone ⊢
      split at hnone
      · exact absurd hnone (sendUnreliable_fills ..).ne_nil
      · rename_i hpayload hdropped
        rw [if_pos hpayload, if_neg hdropped]
        exact ih hrest hnone
    · exact absurd hnone (sendUnreliable_fills ..).ne_nil

/-- A payload that fits a datagram exceeds the window only because of what is in flight. -/
theorem inTransit_pos_of_exceedsWindow {outgoing : Outgoing}
    (hexceeds : peer.exceedsWindow outgoing = true)
    (hlength : outgoing.command.encodedLength ≤ peer.mtu.toNat) : 0 < peer.inTransit := by
  have hpayload : outgoing.command.body.payloadLength ≤ outgoing.command.encodedLength :=
    Nat.le_add_left _ _
  have hmtu := peer.mtu.toNat_lt
  have hlimit := peer.toNat_transitLimit
  rw [exceedsWindow, Bool.and_eq_true, decide_eq_true_iff, UInt32.lt_iff_toNat_lt, Word.addSat,
    Word.toNat_ofNatSat, toNat_payloadLength (by rw [Short]; omega)] at hexceeds
  rw [UInt32.lt_iff_toNat_lt, UInt32.toNat_zero]
  omega

/-- If no reliable command is added although each of them fits, and a ping would, then they wait
for the window. -/
theorem fillReliable_idle {draft : Draft} {now : Stamp}
    (hfits : ∀ other, Composes peer [] other → ∀ outgoing ∈ other.reliable,
      draft.fits outgoing.command = true ∧ outgoing.command.encodedLength ≤ peer.mtu.toNat)
    (hnone : (peer.fillReliable draft now).1.commands = []) :
    ∃ other, Composes peer [] other ∧ peer.fillReliable draft now = (draft, other) ∧
      (other.reliable = [] ∨ 0 < other.inTransit) := by
  have hsends {other : Peer} (hcomposes : Composes peer [] other) (hmtu : other.mtu = peer.mtu)
      (hempty : (other.sendReliable draft now other.reliable).1.commands = []) :
      other.sendReliable draft now other.reliable = (draft, other) ∧
        (other.reliable = [] ∨ 0 < other.inTransit) := by
    obtain ⟨hsame, hexceeds⟩ := sendReliable_idle (fun _ hmem ↦ (hfits _ hcomposes _ hmem).1) hempty
    refine ⟨hsame, ?_⟩
    cases hqueue : other.reliable with
    | nil => exact .inl rfl
    | cons front rest =>
      have hfront : front ∈ other.reliable := by
        rw [hqueue]
        exact List.mem_cons_self
      refine .inr (inTransit_pos_of_exceedsWindow (hexceeds front (by rw [hqueue]; rfl)) ?_)
      rw [hmtu]
      exact (hfits _ hcomposes _ hfront).2
  unfold fillReliable at hnone ⊢
  split
  · rename_i hwaiting
    rw [if_pos hwaiting] at hnone
    exact ⟨peer, .refl peer, hsends (.refl peer) rfl hnone⟩
  · rename_i hempty
    rw [if_neg hempty] at hnone
    split
    · rename_i hping
      rw [if_pos hping] at hnone
      have hmtu : peer.ping.mtu = peer.mtu := congrArg Terms.mtu peer.terms_ping
      exact ⟨peer.ping, peer.ping_composes, hsends peer.ping_composes hmtu hnone⟩
    · exact ⟨peer, .refl peer, rfl, .inl (by simpa using hempty)⟩

theorem fill_idle {now : Stamp} {check : Bool} {draft : Draft} (hroomy : Roomy peer)
    (hwithin : ∀ command, peer.Holds command → command.encodedLength ≤ peer.room)
    (h : peer.fill now check = (some draft, after)) (hnone : draft.commands = []) :
    after.acknowledgements = [] ∧ after.unreliable = [] ∧
      (after.reliable = [] ∨ 0 < after.inTransit) := by
  have hloads := peer.fill_loads now check
  rw [h] at hloads
  have hfirst : (peer.sendAcknowledgements peer.draft peer.acknowledgements).1.Fills draft := by
    cases hloads with
    | @roomy kept => exact (kept.fillReliable_fills ..).trans (sendUnreliable_fills ..)
    | full => exact sendUnreliable_fills ..
  -- No acknowledgement has gone, so there was none, and the draft is still empty.
  have hwaiting : peer.acknowledgements = [] := by
    refine sendAcknowledgements_idle (fun acknowledgement hmem ↦ ?_) (hfirst.eq_nil hnone)
    exact hroomy.fits (hwithin _ (.inl ⟨acknowledgement, hmem, rfl⟩))
  have hstart :
      peer.sendAcknowledgements peer.draft peer.acknowledgements = (peer.draft, peer) := by
    rw [hwaiting, sendAcknowledgements, ← hwaiting]
  rw [hstart] at hloads
  dsimp only at hloads
  cases hloads with
  | @roomy kept _ hlooks =>
    have hkept : Composes peer [] kept ∧ kept.mtu = peer.mtu := by
      rcases hlooks with ⟨-, rfl⟩ | ⟨-, hlooked⟩
      · exact ⟨.refl _, rfl⟩
      · exact ⟨checkTimeouts_composes hlooked, congrArg Terms.mtu (terms_checkTimeouts hlooked)⟩
    have hlength (other : Peer) (hcomposes : Composes peer [] other) (command : Command)
        (hholds : other.Holds command) : command.encodedLength ≤ peer.room := by
      rcases hcomposes.gains command hholds with hold | hbrief
      · exact hwithin command hold
      · exact Nat.le_trans hbrief hroomy.brief
    have hempty := (sendUnreliable_fills ..).eq_nil hnone
    have hfits (other : Peer) (hmore : Composes kept [] other) (outgoing : Outgoing)
        (hmem : outgoing ∈ other.reliable) : peer.draft.fits outgoing.command = true ∧
          outgoing.command.encodedLength ≤ kept.mtu.toNat := by
      have hroom := hlength other (hkept.1.trans hmore) outgoing.command
        (.inr (.inr (mem_outstanding.mpr (.inr (List.mem_map_of_mem hmem)))))
      rw [hkept.2]
      exact ⟨hroomy.fits hroom, Nat.le_trans hroom (Nat.sub_le _ _)⟩
    obtain ⟨other, hcomposes, hfilled, hreliable⟩ := fillReliable_idle hfits hempty
    rw [hfilled] at hnone ⊢
    dsimp only at hnone ⊢
    have hpassed := hkept.1.trans hcomposes
    obtain ⟨_, _, _, _, -, -, -, hlast⟩ := other.sendUnreliable_eq peer.draft other.unreliable
    refine ⟨?_, sendUnreliable_idle (fun outgoing hmem ↦ ?_) hnone, ?_⟩
    · rw [hlast]
      exact List.eq_nil_of_subset_nil (hwaiting ▸ hpassed.acknowledgements)
    · exact hroomy.fits (hlength other hpassed _ (.inr (.inl ⟨outgoing, hmem, rfl⟩)))
    · rw [hlast]
      exact hreliable
  | full hfull =>
    have hcommands := hroomy.commands
    rw [Draft.hasRoom, decide_eq_false_iff_not] at hfull
    exact absurd hcommands hfull

/-! ## Whole lives -/

theorem Reached.within_room (h : Reached id settings peer) (hample : settings.Ample) :
    ∀ command, peer.Holds command → command.encodedLength ≤ peer.room := fun command hholds ↦ by
  have hlength := h.stowed.within command hholds
  rwa [reach, Nat.max_eq_right (h.roomy hample).brief] at hlength

/-- Whatever is asked of a peer and whatever arrives, every command that waits fits a datagram of
its own. So if the connection is active and composing brings nothing, then no acknowledgement and
no unreliable command is left, and a reliable one only if others are in flight, whose
acknowledgement or timeout is still to come. -/
theorem Reached.never_stalls (h : Reached id settings peer) (hample : settings.Ample) :
    (∀ command, peer.Holds command → peer.draft.fits command = true) ∧
      ∀ now check after, peer.state.isActive = true →
        peer.compose now check = (.ok .nothing, after) →
          after.acknowledgements = [] ∧ after.unreliable = [] ∧
            (after.reliable = [] ∨ 0 < after.inTransit ∧ after.sent ≠ []) := by
  have hroomy := h.roomy hample
  have hwithin := h.within_room hample
  refine ⟨fun command hholds ↦ hroomy.fits (hwithin command hholds), ?_⟩
  intro now check after hactive hcompose
  have hreached := h.compose now check
  have hyields := peer.compose_yields now check
  rw [hcompose] at hyields hreached
  cases hyields with
  | idle hover =>
    rw [hactive] at hover
    cases hover
  | nothing _ hfill hnone =>
    obtain ⟨hacknowledgements, hunreliable, hreliable⟩ := fill_idle hroomy hwithin hfill hnone
    refine ⟨hacknowledgements, hunreliable, hreliable.imp_right fun htransit ↦ ⟨htransit, ?_⟩⟩
    intro hsent
    have hcounted : after.inTransit.toNat ≤ after.flight := hreached.counted.within
    rw [flight, hsent, load_nil] at hcounted
    rw [UInt32.lt_iff_toNat_lt, UInt32.toNat_zero] at htransit
    omega

/-- The window keeps a packet back, and three others are in flight. -/
theorem never_stalls_convoy : ∃ events peer after,
    (vacant 0 narrow).run convoy = .ok (events, peer) ∧
      peer.compose 1004 true = (.ok .nothing, after) ∧ after.acknowledgements = [] ∧
      after.unreliable = [] ∧ after.reliable ≠ [] ∧ 0 < after.inTransit ∧ after.sent ≠ [] := by
  have hreplay : ((vacant 0 narrow).run convoy).toOption.any (fun result ↦
      result.2.state.isActive && (result.2.compose 1004 true).1.toOption == some .nothing &&
        !(result.2.compose 1004 true).2.reliable.isEmpty) = true := by
    decide +kernel
  obtain ⟨⟨events, peer⟩, hrun, hends⟩ := exists_of_any_toOption hreplay
  simp only [Bool.and_eq_true, beq_iff_eq, Bool.not_eq_true', List.isEmpty_eq_false_iff] at hends
  obtain ⟨⟨hactive, hnothing⟩, hwaits⟩ := hends
  have hample : narrow.Ample := ⟨by decide, by decide, by decide, by decide⟩
  have hcompose : peer.compose 1004 true = (.ok .nothing, (peer.compose 1004 true).2) := by
    cases hresult : (peer.compose 1004 true).1 with
    | error error =>
      rw [hresult] at hnothing
      cases hnothing
    | ok composition =>
      rw [hresult] at hnothing
      cases hnothing
      rw [← hresult]
  obtain ⟨-, hquiet⟩ := Reached.never_stalls (Reached.vacant.run hrun) hample
  obtain ⟨hacknowledgements, hunreliable, hreliable⟩ := hquiet 1004 true _ hactive hcompose
  obtain ⟨htransit, hsent⟩ := hreliable.resolve_left hwaits
  exact ⟨events, peer, _, hrun, hcompose, hacknowledgements, hunreliable, hwaits, htransit, hsent⟩

end Peer

end ReliableDatagram
