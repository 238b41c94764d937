import ReliableDatagram.Proofs.Peer.Emission
import Mathlib.Algebra.Order.BigOperators.Group.List
import Mathlib.Algebra.Order.Group.Nat

/-!
# When composing fails

The header of a datagram tells the number of its commands in one byte, and the settings may
allow more commands than that. A draft is filled by the settings, and laid out when its commands
have already left their queues. So composing fails exactly if a draft holds more than 255
commands, and every time it does, what the draft held is not in the queues any more.
-/

namespace ReliableDatagram

namespace Peer

variable {peer after : Peer} {now : Stamp} {check : Bool}

/-- The queues hold what they held, and as much is in flight. -/
structure Retains (peer after : Peer) : Prop where
  acknowledgements : after.acknowledgements = peer.acknowledgements
  reliable : after.reliable = peer.reliable
  unreliable : after.unreliable = peer.unreliable
  sent : after.sent = peer.sent
  inTransit : after.inTransit = peer.inTransit

/-- While the queues hold what they held, there is as much to send. -/
theorem Retains.burden_eq (h : peer.Retains after) (now : Stamp) :
    after.burden now = peer.burden now := by
  rw [burden, spare, h.acknowledgements, h.reliable, h.unreliable, h.sent]
  rfl

/-- What goes out is missing from some queue, or else there would be less to send. -/
theorem Ships.not_retains {manifest : Manifest} (h : peer.Ships now check manifest after)
    (hsome : manifest.commands ≠ []) : ¬ peer.Retains after := by
  intro hsame
  have hburden := h.burden_add_length_le
  have hlength := List.length_pos_iff.mpr hsome
  rw [hsame.burden_eq now] at hburden
  omega

/-- A command of a draft is shorter than any datagram can be. -/
theorem encodedLength_lt_of_fill {draft : Draft} (h : peer.fill now check = (some draft, after)) :
    ∀ command ∈ draft.commands, command.encodedLength < 65536 := by
  intro command hcommand
  obtain ⟨hsize, hwithin⟩ := size_of_fill h
  calc command.encodedLength
    _ ≤ (draft.commands.map (·.encodedLength)).sum :=
      List.le_sum_of_mem (List.mem_map.mpr ⟨command, hcommand, rfl⟩)
    _ ≤ draft.size := by
      rw [hsize]
      exact Nat.le_add_left _ _
    _ ≤ peer.mtu.toNat := hwithin (List.ne_nil_of_mem hcommand)
    _ < 65536 := peer.mtu.toNat_lt

/-- A draft fails to be laid out exactly if it holds more commands than the header can tell. -/
theorem encodeDatagram_eq_error_iff {draft : Draft} {error : EncodeError}
    (h : peer.fill now check = (some draft, after)) :
    after.encodeDatagram draft.commands now = .error error ↔
      error = .tooManyCommands ∧ 255 < draft.commands.length := by
  by_cases hcount : draft.commands.length ≤ 255
  · obtain ⟨bytes, hbytes⟩ := Datagram.exists_encode (after.header now) hcount
      fun command hcommand ↦ Nat.lt_trans (encodedLength_lt_of_fill h command hcommand) (by decide)
    rw [encodeDatagram, hbytes]
    exact iff_of_false nofun fun hmany ↦ absurd hmany.2 (Nat.not_lt.mpr hcount)
  · have hfails : after.encodeDatagram draft.commands now = .error .tooManyCommands := by
      rw [encodeDatagram, Datagram.encode, if_neg (by omega)]
      rfl
    rw [hfails, Except.error.injEq, eq_comm, and_iff_left (Nat.not_le.mp hcount)]

/-- Composing fails only where the settings allow a datagram more commands than its header can
tell, and a draft has that many. By then these commands have left their queues, and they are in
no datagram: the acknowledgements and the unreliable commands among them are lost, and the
reliable ones are taken to be in flight. -/
theorem compose_forfeits (peer : Peer) (now : Stamp) (check : Bool) :
    (peer.settings.commandsPerDatagram ≤ 255 →
      ∃ composition after, peer.compose now check = (.ok composition, after)) ∧
      ∀ error after, peer.compose now check = (.error error, after) →
        error = .tooManyCommands ∧ ¬ peer.Retains after ∧
          ∃ manifest, 255 < manifest.commands.length ∧
            manifest.commands.length ≤ peer.settings.commandsPerDatagram ∧
            peer.Ships now check manifest after := by
  have hyields := peer.compose_yields now check
  refine ⟨fun hlimit ↦ ?_, fun error after hcompose ↦ ?_⟩
  · cases hcompose : peer.compose now check with
    | mk result after =>
      rw [hcompose] at hyields
      cases hyields with
      | idle | gaveUp | nothing | datagram => exact ⟨_, _, rfl⟩
      | failed _ hfill hfails =>
        -- A draft keeps to the limit of the settings, so it is laid out.
        have hmost := length_commands_le_of_fill hfill
        have hmany := ((encodeDatagram_eq_error_iff hfill).mp hfails).2
        exact absurd (Nat.le_trans hmost hlimit) (Nat.not_le.mpr hmany)
  · rw [hcompose] at hyields
    cases hyields with
    | @failed draft filled meter traffic _ _ hfill hfails =>
      obtain ⟨rfl, hmany⟩ := (encodeDatagram_eq_error_iff hfill).mp hfails
      have hmost := length_commands_le_of_fill hfill
      obtain ⟨manifest, hcommands, hships⟩ := fill_ships hfill
      rw [hcommands] at hmany hmost
      have hleft := hships.noted meter traffic filled.lastSend
      exact ⟨rfl, hleft.not_retains (List.ne_nil_of_length_pos (by omega)), manifest, hmany,
        hmost, hleft⟩

/-- Settings that allow a datagram more commands than its header can tell. -/
def lavish : Settings :=
  { mtu := ⟨576, 5000⟩, defaultMtu := 5000, commandsPerDatagram := 300, buffersPerDatagram := 1000 }

/-- A connection on which 256 packets of one byte are submitted, before it has acknowledged that
it was granted. -/
def flood : List Action :=
  let context : Context := ⟨1000, 0, 0⟩
  [.connect ⟨"10.0.0.1", 4000⟩ 1 7 context,
    .handle ⟨0, 0, 1, 1000, 7⟩ ⟨controlChannel, Command.acknowledgeFlag, 1,
      .verifyConnect ⟨3, 5000, 32768, 1, 0, 0, Settings.throttle {}⟩⟩ context] ++
    List.replicate 256 (.send 0 ⟨[7], .plain⟩)

/-- The packets and the acknowledgement are lost. -/
theorem compose_forfeits_flood : ∃ events peer after,
    (vacant 0 lavish).run flood = .ok (events, peer) ∧
      peer.compose 1000 true = (.error .tooManyCommands, after) ∧
      peer.acknowledgements.length = 1 ∧ peer.unreliable.length = 256 ∧
      after.acknowledgements = [] ∧ after.reliable = [] ∧ after.unreliable = [] ∧
      after.sent = [] ∧ ¬ peer.Retains after := by
  have hreplay : ((vacant 0 lavish).run flood).toOption.any (fun result ↦
      match result.2.compose 1000 true with
      | (.error .tooManyCommands, after) =>
        result.2.acknowledgements.length == 1 && result.2.unreliable.length == 256 &&
          after.acknowledgements.isEmpty && after.reliable.isEmpty && after.unreliable.isEmpty &&
          after.sent.isEmpty
      | _ => false) = true := by
    decide +kernel
  obtain ⟨⟨events, peer⟩, hrun, hends⟩ := exists_of_any_toOption hreplay
  split at hends
  · rename_i after hcompose
    simp only [Bool.and_eq_true, List.isEmpty_iff, beq_iff_eq] at hends
    obtain ⟨⟨⟨⟨⟨hone, hmany⟩, hacknowledgements⟩, hreliable⟩, hunreliable⟩, hsent⟩ := hends
    obtain ⟨-, hlost, -⟩ := (peer.compose_forfeits 1000 true).2 _ after hcompose
    exact ⟨events, peer, after, hrun, hcompose, hone, hmany, hacknowledgements, hreliable,
      hunreliable, hsent, hlost⟩
  · cases hends

end Peer

end ReliableDatagram
