import ReliableDatagram.Proofs.Peer.Budget
import ReliableDatagram.Proofs.Peer.Lifecycle

/-!
# What a datagram holds

A datagram holds a prefix of the acknowledgements that wait, a prefix of the reliable commands,
and of a prefix of the others what the throttle lets pass, each part in the order of its queue.
Before the reliable commands are taken, overdue ones go to their front; where there is none and
the connection is silent, a ping is queued. A manifest names these parts. Filling a draft is
shown to leave every queue as the manifest says, so that nothing is added, lost, changed or
repeated besides.
-/

namespace ReliableDatagram

/-- How the queues of a peer are parted when a datagram is composed. -/
structure Manifest where
  acknowledged : List Acknowledgement
  overdue : List Outgoing
  /-- The commands in flight that stay there. -/
  awaited : List Outgoing
  /-- The ping that is queued, if one is. -/
  pings : List Outgoing
  taken : List Outgoing
  /-- The unreliable commands that leave their queue. -/
  tried : List Outgoing
  passed : List Outgoing

def Manifest.commands (manifest : Manifest) : List Command :=
  manifest.acknowledged.map (·.toCommand) ++ manifest.taken.map (·.command) ++
    manifest.passed.map (·.command)

theorem Manifest.length_commands (manifest : Manifest) : manifest.commands.length =
    manifest.acknowledged.length + manifest.taken.length + manifest.passed.length := by
  simp only [commands, List.length_append, List.length_map]

namespace Peer

variable {peer middle after : Peer} {now : Stamp} {check : Bool}

/-! ## The reliable part -/

def keepalive (peer : Peer) : Outgoing where
  command := ⟨controlChannel, Command.acknowledgeFlag, peer.controlSequence + 1, .ping⟩

/-- A ping is queued, and goes out alone: the connection stands, no reliable command waits or is
in flight, and no acknowledgement has arrived for as long as the settings say. -/
structure Pings (peer : Peer) (now : Stamp) (waiting awaited pings taken : List Outgoing) :
    Prop where
  pings : pings = [peer.keepalive]
  taken : taken = [peer.keepalive]
  waiting : waiting = []
  awaited : awaited = []
  connected : peer.state = .connected
  due : peer.settings.pingInterval ≤ Stamp.distance now peer.lastReceive

/-- A ping that is queued goes out: it has been made sure that it fits, and the window does not
keep it back. -/
theorem sendReliable_ping {draft : Draft} (hconnected : peer.state = .connected)
    (hwaiting : peer.reliable = [])
    (hfits : draft.fits (.unnumbered .ping 0 Command.acknowledgeFlag) = true) (now : Stamp) :
    ∃ outgoingTotal nextTimeout inTransit lossMeter,
      peer.ping.sendReliable draft now peer.ping.reliable =
        (draft.push peer.keepalive.command, { peer with
          reliable := []
          sent := peer.sent ++ [peer.stamp peer.keepalive now]
          controlSequence := peer.controlSequence + 1
          outgoingTotal := outgoingTotal
          nextTimeout := nextTimeout
          inTransit := inTransit
          lossMeter := lossMeter }) := by
  have hping : peer.ping = { peer with
      outgoingTotal := peer.outgoingTotal + UInt32.ofNat
        (Command.unnumbered .ping controlChannel Command.acknowledgeFlag).encodedLength
      controlSequence := peer.controlSequence + 1
      reliable := [peer.keepalive] } := by
    rw [ping, if_pos hconnected, queueControl_eq, hwaiting]
    rfl
  have hgoes : draft.fits peer.keepalive.command = true := hfits
  have hwindow (other : Peer) : other.exceedsWindow peer.keepalive = false := rfl
  rw [hping, sendReliable, hgoes, hwindow, Bool.not_false, Bool.and_true, if_pos rfl, sendReliable]
  exact ⟨_, _, _, _, rfl⟩

/-- A prefix of the reliable commands goes out; a ping is among them only where it is the only
one. -/
theorem fillReliable_eq (peer : Peer) (draft : Draft) (now : Stamp) : ∃ pings taken kept,
    peer.reliable ++ pings = taken ++ kept ∧
      (pings = [] ∨ peer.Pings now peer.reliable peer.sent pings taken) ∧
      (peer.fillReliable draft now).1.commands = draft.commands ++ taken.map (·.command) ∧
      ∃ controlSequence outgoingTotal nextTimeout inTransit lossMeter,
        (peer.fillReliable draft now).2 = { peer with
          reliable := kept
          sent := peer.sent ++ taken.map (peer.stamp · now)
          controlSequence := controlSequence
          outgoingTotal := outgoingTotal
          nextTimeout := nextTimeout
          inTransit := inTransit
          lossMeter := lossMeter } := by
  unfold fillReliable
  split
  · obtain ⟨taken, kept, hqueue, hcommands, nextTimeout, inTransit, lossMeter, hafter⟩ :=
      peer.sendReliable_eq draft now peer.reliable
    exact ⟨[], taken, kept, by rw [List.append_nil, hqueue], .inl rfl, hcommands,
      peer.controlSequence, peer.outgoingTotal, nextTimeout, inTransit, lossMeter, hafter⟩
  · rename_i hempty
    have hwaiting : peer.reliable = [] := by simpa using hempty
    split
    · rename_i hsilent
      simp only [needsPing, Bool.and_eq_true, beq_iff_eq, List.isEmpty_iff,
        decide_eq_true_iff] at hsilent
      obtain ⟨⟨⟨hconnected, hsent⟩, hdue⟩, hfits⟩ := hsilent
      obtain ⟨outgoingTotal, nextTimeout, inTransit, lossMeter, hfilled⟩ :=
        sendReliable_ping hconnected hwaiting hfits now
      rw [hfilled]
      exact ⟨[peer.keepalive], [peer.keepalive], [], by rw [hwaiting]; rfl,
        .inr ⟨rfl, rfl, hwaiting, hsent, hconnected, hdue⟩, rfl, peer.controlSequence + 1,
        outgoingTotal, nextTimeout, inTransit, lossMeter, rfl⟩
    · refine ⟨[], [], [], by rw [hwaiting], .inl rfl, (List.append_nil _).symm,
        peer.controlSequence, peer.outgoingTotal, peer.nextTimeout, peer.inTransit, peer.lossMeter,
        ?_⟩
      rw [List.map_nil, List.append_nil, ← hwaiting]

/-! ## All parts -/

/-- Overdue commands are looked for: that is asked, one may be due, and so many acknowledgements
leave room for more. -/
def looks (peer : Peer) (now : Stamp) (check : Bool) (acknowledged : Nat) : Bool :=
  check && peer.timeoutsDue now && decide (acknowledged < peer.settings.commandsPerDatagram)

/-- What the manifest lists goes out, and the queues of `after` hold the rest. -/
structure Ships (peer : Peer) (now : Stamp) (check : Bool) (manifest : Manifest) (after : Peer) :
    Prop where
  acknowledgements : peer.acknowledgements = manifest.acknowledged ++ after.acknowledgements
  flight : (manifest.overdue, manifest.awaited) =
    if peer.looks now check manifest.acknowledged.length then
      (peer.sent.filter (·.isOverdue now), peer.sent.filter (!·.isOverdue now))
    else ([], peer.sent)
  pings : manifest.pings = [] ∨
    peer.Pings now (manifest.overdue.map (·.backedOff) ++ peer.reliable) manifest.awaited
      manifest.pings manifest.taken
  reliable : manifest.overdue.map (·.backedOff) ++ peer.reliable ++ manifest.pings =
    manifest.taken ++ after.reliable
  sent : after.sent = manifest.awaited ++ manifest.taken.map (peer.stamp · now)
  unreliable : peer.unreliable = manifest.tried ++ after.unreliable
  throttle : peer.pacing.Sifts manifest.tried manifest.passed after.pacing

/-- What is noted of a datagram in the accounts of the peer leaves the queues as they are. -/
theorem Ships.noted {manifest : Manifest} (h : peer.Ships now check manifest after)
    (meter : LossMeter) (traffic : Traffic) (lastSend : Stamp) :
    peer.Ships now check manifest
      { after with lossMeter := meter, traffic := traffic, lastSend := lastSend } :=
  { h with }

/-- The commands in flight are parted, or all of them are awaited. -/
theorem Ships.parts {manifest : Manifest} (h : peer.Ships now check manifest after) :
    manifest.overdue = [] ∧ manifest.awaited = peer.sent ∨
      manifest.overdue = peer.sent.filter (·.isOverdue now) ∧
        manifest.awaited = peer.sent.filter (!·.isOverdue now) := by
  have hflight := h.flight
  split at hflight
  · exact .inr (Prod.mk.inj hflight)
  · exact .inl (Prod.mk.inj hflight)

/-- Parting the commands in flight neither loses nor repeats any. -/
theorem Ships.flight_perm {manifest : Manifest} (h : peer.Ships now check manifest after) :
    (manifest.overdue ++ manifest.awaited).Perm peer.sent := by
  rcases h.parts with ⟨hnone, hawaited⟩ | ⟨hoverdue, hawaited⟩ <;> rw [hawaited]
  · rw [hnone, List.nil_append]
  · rw [hoverdue]
    exact List.filter_append_perm _ _

theorem stamp_sentTime (peer : Peer) (outgoing : Outgoing) (now : Stamp) :
    (peer.stamp outgoing now).sentTime = now := by
  unfold stamp
  split <;> rfl

/-- A command that goes out now is not overdue now, since its timeout is never zero. -/
theorem stamp_isOverdue (peer : Peer) (outgoing : Outgoing) (now : Stamp) :
    (peer.stamp outgoing now).isOverdue now = false := by
  unfold stamp
  split
  · have hleast : (1 : UInt32) ≤ max peer.pacing.retransmitTimeout 1 := by
      rw [UInt32.max_def]
      split
      · exact UInt32.le_refl 1
      · rename_i hlonger
        exact UInt32.le_of_lt (UInt32.not_le.mp hlonger)
    rw [Outgoing.isOverdue, decide_eq_false_iff_not, Stamp.distance_self]
    exact fun hle ↦ absurd (UInt32.le_trans hleast hle) (by decide)
  · rename_i htimeout
    rw [Outgoing.isOverdue, decide_eq_false_iff_not, Stamp.distance_self]
    exact fun hle ↦ htimeout (UInt32.le_antisymm hle UInt32.zero_le)

/-- The overdue commands go to the front of those that wait, if they are looked for and none of
them has been sent as often as it may. -/
theorem looked_eq {kept : Peer} (hlooks : (check && middle.timeoutsDue now) = false ∧
    kept = middle ∨ (check && middle.timeoutsDue now) = true ∧
      middle.checkTimeouts now = (false, kept)) :
    ∃ overdue awaited, (overdue, awaited) = (if check && middle.timeoutsDue now then
        (middle.sent.filter (·.isOverdue now), middle.sent.filter (!·.isOverdue now))
      else ([], middle.sent)) ∧
      (∀ outgoing ∈ overdue, outgoing.isExhausted = false) ∧
      ∃ nextTimeout inTransit traffic lossMeter, kept = { middle with
        sent := awaited
        reliable := overdue.map (·.backedOff) ++ middle.reliable
        nextTimeout := nextTimeout
        inTransit := inTransit
        traffic := traffic
        lossMeter := lossMeter } := by
  rcases hlooks with ⟨hnot, rfl⟩ | ⟨hdue, hlooked⟩
  · rw [hnot, if_neg Bool.false_ne_true]
    exact ⟨[], kept.sent, rfl, by simp, _, _, _, _, rfl⟩
  · rw [hdue, if_pos rfl]
    obtain ⟨_, _, _, _, hafter⟩ := checkTimeouts_eq hlooked
    exact ⟨_, _, rfl, checkTimeouts_spares hlooked, _, _, _, _, hafter⟩

/-- A draft is filled with what a manifest of the queues lists, and no overdue command on it has
been sent as often as it may. -/
theorem fill_spares {draft : Draft} (h : peer.fill now check = (some draft, after)) :
    ∃ manifest, draft.commands = manifest.commands ∧ Ships peer now check manifest after ∧
      ∀ outgoing ∈ manifest.overdue, outgoing.isExhausted = false := by
  obtain ⟨acknowledged, waiting, state, hwaiting, hfirst, hstate, hmiddle⟩ :=
    peer.sendAcknowledgements_eq peer.draft peer.acknowledgements
  have hlimit := (peer.sendAcknowledgements_fills peer.draft peer.acknowledgements).length_le.1
  have hloads := peer.fill_loads now check
  rw [h, hmiddle] at hloads
  generalize (peer.sendAcknowledgements peer.draft peer.acknowledgements).1 = first at *
  have hroom : first.hasRoom =
      decide (acknowledged.length < peer.settings.commandsPerDatagram) := by
    rw [Draft.hasRoom, hlimit, hfirst, List.length_append, List.length_map]
    simp only [Peer.draft, List.length_nil, Nat.zero_add]
  cases hloads with
  | @roomy kept hroomy hlooks =>
    obtain ⟨overdue, awaited, hflight, hspared, _, _, _, _, hkept⟩ := looked_eq hlooks
    obtain ⟨pings, taken, unsent, hreliable, hpings, hsecond, _, _, _, _, _, hfilled⟩ :=
      kept.fillReliable_eq first now
    obtain ⟨tried, passed, held, pacing, hunreliable, hsifts, hthird, hlast⟩ :=
      (kept.fillReliable first now).2.sendUnreliable_eq (kept.fillReliable first now).1
        (kept.fillReliable first now).2.unreliable
    refine ⟨⟨acknowledged, overdue, awaited, pings, taken, tried, passed⟩, ?_, ?_, hspared⟩
    · rw [hthird, hsecond, hfirst]
      rfl
    · have hlooking : peer.looks now check acknowledged.length =
          (check && peer.timeoutsDue now) := by
        rw [looks, ← hroom, hroomy, Bool.and_true]
      change Ships peer now check _ (Prod.snd _)
      rw [hlast, hfilled]
      rw [hfilled] at hunreliable hsifts
      subst hkept
      refine ⟨hwaiting, ?_, hpings.imp_right fun hping ↦ ?_, hreliable, rfl, hunreliable, hsifts⟩
      · rw [hlooking]
        exact hflight
      · -- The peer stands where it stood, since it is connected still.
        have hconnected : state = .connected := hping.connected
        refine { hping with connected := ?_ }
        rcases hstate with hsame | ⟨hzombie, -⟩
        · rw [← hsame, hconnected]
        · rw [hzombie] at hconnected
          cases hconnected
  | full hfull =>
    obtain ⟨tried, passed, held, pacing, hunreliable, hsifts, hsecond, hlast⟩ :=
      sendUnreliable_eq { peer with acknowledgements := waiting, state := state } first
        peer.unreliable
    refine ⟨⟨acknowledged, [], peer.sent, [], [], tried, passed⟩, ?_, ?_,
      fun _ hmem ↦ by cases hmem⟩
    · rw [hsecond, hfirst]
      simp [Manifest.commands, Peer.draft]
    · have hlooking : peer.looks now check acknowledged.length = false := by
        rw [looks, ← hroom, hfull, Bool.and_false]
      change Ships peer now check _ (Prod.snd _)
      rw [hlast]
      refine ⟨hwaiting, ?_, .inl rfl, by simp, by simp, hunreliable, hsifts⟩
      rw [hlooking, if_neg Bool.false_ne_true]

/-- A draft is filled with what a manifest of the queues lists. -/
theorem fill_ships {draft : Draft} (h : peer.fill now check = (some draft, after)) :
    ∃ manifest, draft.commands = manifest.commands ∧ Ships peer now check manifest after := by
  obtain ⟨manifest, hcommands, hships, -⟩ := fill_spares h
  exact ⟨manifest, hcommands, hships⟩

/-- Unless the connection is given up, composing leaves the peer as it is or ships something, and
a datagram is not empty. -/
theorem compose_ships {result : Except EncodeError Composition}
    (h : peer.compose now check = (result, after)) (hgoes : result ≠ .ok .timedOut) :
    after = peer ∧ result = .ok .nothing ∨ ∃ manifest, peer.Ships now check manifest after ∧
      ∀ datagram, result = .ok (.datagram datagram) → manifest.commands ≠ [] := by
  have hyields := peer.compose_yields now check
  rw [h] at hyields
  cases hyields with
  | idle => exact .inl ⟨rfl, rfl⟩
  | gaveUp => exact absurd rfl hgoes
  | nothing _ hfill =>
    obtain ⟨manifest, -, hships⟩ := fill_ships hfill
    exact .inr ⟨manifest, hships, fun _ hdatagram ↦ by cases hdatagram⟩
  | @failed _ filled _ _ _ _ hfill =>
    obtain ⟨manifest, -, hships⟩ := fill_ships hfill
    exact .inr ⟨manifest, hships.noted _ _ filled.lastSend, fun _ hdatagram ↦ by cases hdatagram⟩
  | datagram _ hfill hsome =>
    obtain ⟨manifest, hcommands, hships⟩ := fill_ships hfill
    exact .inr ⟨manifest, hships.noted _ _ _, fun _ _ ↦ hcommands ▸ hsome⟩

/-! ## Datagrams -/

/-- A datagram is read back, without its trailer and to its last byte, as what it was laid out
from. -/
theorem readsAll_of_encodeDatagram {commands : List Command} {datagram : Bytes}
    (h : peer.encodeDatagram commands now = .ok datagram) : ∃ content count,
      (if peer.settings.checksums then Checksum.strip Checksum.crc32 datagram
        else .ok datagram) = .ok content ∧
      Datagram.ReadsAll content { peer.header now with commandCount := count } commands ∧
      count.toNat = commands.length := by
  unfold encodeDatagram at h
  cases hcontent : Datagram.encode (peer.header now) commands with
  | error error =>
    rw [hcontent] at h
    cases h
  | ok content =>
    rw [hcontent] at h
    cases h
    have hread := Datagram.read_encode [] hcontent
    have hdecode := Datagram.decode_encode [] hcontent
    rw [List.append_nil] at hread hdecode
    refine ⟨content, UInt8.ofNat commands.length, ?_, ⟨hdecode, hread⟩, ?_⟩
    · split
      · exact Checksum.strip_append Checksum.crc32 content
      · rfl
    · exact UInt8.toNat_ofNat_of_lt' (Datagram.length_lt_of_encode hcontent)

/-- The commands that the other end reads off a datagram. -/
def contents (peer : Peer) (datagram : Bytes) : List Command :=
  match (if peer.settings.checksums then Checksum.strip Checksum.crc32 datagram
    else .ok datagram) >>= Datagram.decode with
  | .ok (_, commands) => commands
  | .error _ => []

/-- They are the commands that it was laid out from. -/
theorem contents_of_encodeDatagram {commands : List Command} {datagram : Bytes}
    (hsettings : after.settings = peer.settings)
    (h : after.encodeDatagram commands now = .ok datagram) :
    peer.contents datagram = commands := by
  obtain ⟨content, count, hcontent, ⟨hdecode, -⟩, -⟩ := readsAll_of_encodeDatagram h
  rw [contents, ← hsettings, hcontent]
  simp only [bind, Except.bind, hdecode]

/-- The commands that are put on the wire by what composing comes to. -/
def carried (peer : Peer) : Except EncodeError Composition → List Command
  | .ok (.datagram datagram) => peer.contents datagram
  | _ => []

/-- A datagram is no longer than the connection allows. Without its trailer it is read, to its
last byte, as a header with the number of the other end, the challenge of the connection and the
time, and as one or more commands, up to as many as the settings allow: acknowledgements, then
reliable commands, then others. They have left their queues in this order, the overdue ones ahead
of those that waited, and apart from a ping and from what the throttle refuses, that is all that
the queues have gained or lost. -/
theorem datagram_contents {datagram : Bytes}
    (h : peer.compose now check = (.ok (.datagram datagram), after)) :
    datagram.length ≤ peer.mtu.toNat ∧ ∃ content header manifest,
      (if peer.settings.checksums then Checksum.strip Checksum.crc32 datagram
        else .ok datagram) = .ok content ∧
      Datagram.ReadsAll content header manifest.commands ∧
      header.peer = peer.remoteId ∧ header.challenge = peer.challenge ∧ header.sentTime = now ∧
      header.commandCount.toNat = manifest.commands.length ∧
      1 ≤ manifest.commands.length ∧
      manifest.commands.length ≤ peer.settings.commandsPerDatagram ∧
      peer.Ships now check manifest after := by
  have hlength : datagram.length ≤ peer.mtu.toNat := length_le_of_compose (congrArg Prod.fst h)
  have hyields := peer.compose_yields now check
  rw [h] at hyields
  cases hyields with
  | @datagram draft filled _ _ _ _ hfill hsome hbytes =>
    obtain ⟨manifest, hcommands, hships⟩ := fill_ships hfill
    obtain ⟨content, count, hcontent, hreads, hcount⟩ := readsAll_of_encodeDatagram hbytes
    have hterms := terms_fill hfill
    have hmost := length_commands_le_of_fill hfill
    rw [show filled.settings = peer.settings from congrArg Terms.settings hterms] at hcontent
    rw [hcommands] at hreads hcount hsome hmost
    exact ⟨hlength, content, _, manifest, hcontent, hreads, congrArg Terms.remoteId hterms,
      congrArg Terms.challenge hterms, rfl, hcount, List.length_pos_iff.mpr hsome, hmost,
      hships.noted _ _ _⟩

/-- Settings of a connection with trailers whose throttle is half closed. -/
def halting : Settings := { initialThrottle := 16, checksums := true }

/-- A connection with something in each queue: a packet that was sent a second ago, one that
waits, an acknowledgement, and three packets for the throttle. -/
def medley : List Action :=
  let context : Context := ⟨1000, 0, 0⟩
  let later : Context := ⟨2000, 0, 0⟩
  [.connect ⟨"10.0.0.1", 4000⟩ 1 7 context,
    .handle ⟨0, 0, 1, 1000, 7⟩ ⟨controlChannel, Command.acknowledgeFlag, 1,
      .verifyConnect ⟨3, 1400, 32768, 1, 0, 0, Settings.throttle {}⟩⟩ context,
    .send 0 ⟨[1, 2], .reliable⟩, .compose 1000 true,
    .handle ⟨0, 0, 1, 2000, 7⟩ ⟨0, Command.acknowledgeFlag, 1, .sendReliable [9]⟩ later,
    .send 0 ⟨[3], .reliable⟩, .send 0 ⟨[4], .plain⟩, .send 0 ⟨[5], .plain⟩, .send 0 ⟨[6], .plain⟩]

/-- The packet that was sent is overdue and goes out ahead of the one that waited. -/
theorem datagram_contents_medley : ∃ events peer datagram after manifest,
    (vacant 0 halting).run medley = .ok (events, peer) ∧
      peer.compose 2000 true = (.ok (.datagram datagram), after) ∧
      peer.acknowledgements ≠ [] ∧ peer.sent.length = 1 ∧ peer.unreliable.length = 3 ∧
      after.acknowledgements = [] ∧ after.sent.length = 2 ∧ after.unreliable = [] ∧
      datagram.length ≤ peer.mtu.toNat ∧ 1 ≤ manifest.commands.length ∧
      manifest.commands.length ≤ 32 ∧ peer.Ships 2000 true manifest after := by
  have hreplay : ((vacant 0 halting).run medley).toOption.any (fun result ↦
      (result.2.compose 2000 true).1.toOption.any
          (fun composition ↦ composition != .nothing && composition != .timedOut) &&
        (!result.2.acknowledgements.isEmpty && result.2.sent.length == 1 &&
          result.2.unreliable.length == 3 && result.2.settings.commandsPerDatagram == 32) &&
        ((result.2.compose 2000 true).2.acknowledgements.isEmpty &&
          (result.2.compose 2000 true).2.sent.length == 2 &&
          (result.2.compose 2000 true).2.unreliable.isEmpty)) = true := by
    decide +kernel
  obtain ⟨⟨events, peer⟩, hrun, hends⟩ := exists_of_any_toOption hreplay
  rw [Bool.and_eq_true, Bool.and_eq_true] at hends
  obtain ⟨⟨hcomposes, hbefore⟩, hafter⟩ := hends
  simp only [Bool.and_eq_true, Bool.not_eq_true', List.isEmpty_eq_false_iff, List.isEmpty_iff,
    beq_iff_eq] at hbefore hafter
  obtain ⟨⟨⟨hwaiting, hsent⟩, hunreliable⟩, hlimit⟩ := hbefore
  obtain ⟨⟨hnone, hflight⟩, hempty⟩ := hafter
  obtain ⟨composition, hcomposition, hsome⟩ := exists_of_any_toOption hcomposes
  cases composition with
  | nothing | timedOut => cases hsome
  | datagram datagram =>
    have hcompose : peer.compose 2000 true =
        (.ok (.datagram datagram), (peer.compose 2000 true).2) := Prod.ext hcomposition rfl
    obtain ⟨hlength, _, _, manifest, -, -, -, -, -, -, hleast, hmost, hships⟩ :=
      datagram_contents hcompose
    rw [hlimit] at hmost
    exact ⟨events, peer, datagram, _, manifest, hrun, hcompose, hwaiting, hsent, hunreliable,
      hnone, hflight, hempty, hlength, hleast, hmost, hships⟩

end Peer

end ReliableDatagram
