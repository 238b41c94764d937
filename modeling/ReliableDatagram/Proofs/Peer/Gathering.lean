import ReliableDatagram.Proofs.Peer.Contents

/-!
# How many buffers a datagram is gathered from

A datagram is gathered from a buffer for its header, one for each command, and one more for each
payload. A command is added as long as one buffer is free, whether it needs one or two. So a
datagram keeps to the number of buffers that the settings allow unless its last command carries a
payload and has found a single buffer free; then it takes one more. Where the settings allow two
buffers for every command and one for the header, that does not happen.
-/

namespace ReliableDatagram

/-- The buffers that a command takes: one for its header, and one for its payload. -/
def Command.buffers (command : Command) : Nat := if command.hasPayload then 2 else 1

theorem Command.buffers_pos (command : Command) : 1 ≤ command.buffers := by
  unfold buffers
  split <;> decide

theorem Command.buffers_le_two (command : Command) : command.buffers ≤ 2 := by
  unfold buffers
  split <;> decide

def gatheredFrom (commands : List Command) : Nat := 1 + (commands.map (·.buffers)).sum

theorem gatheredFrom_concat (front : List Command) (last : Command) :
    gatheredFrom (front ++ [last]) = gatheredFrom front + last.buffers := by
  rw [gatheredFrom, gatheredFrom, List.map_append, List.sum_append, List.map_singleton,
    List.sum_singleton, Nat.add_assoc]

theorem gatheredFrom_le (commands : List Command) :
    gatheredFrom commands ≤ 1 + 2 * commands.length := by
  unfold gatheredFrom
  induction commands with
  | nil => decide
  | cons command rest ih =>
    have hfirst := command.buffers_le_two
    rw [List.map_cons, List.sum_cons, List.length_cons]
    omega

namespace Draft

variable {draft filled : Draft}

def Counts (draft : Draft) : Prop := draft.buffers = gatheredFrom draft.commands

theorem Counts.push (h : draft.Counts) (command : Command) : (draft.push command).Counts := by
  rw [Counts, Draft.push, gatheredFrom_concat, ← h]
  rfl

/-- The last command that was added has found a buffer free. -/
theorem Fills.gathers (h : draft.Fills filled) (hcounts : draft.Counts) :
    filled.Counts ∧ filled.bufferLimit = draft.bufferLimit ∧
      (filled.commands = draft.commands ∨ ∃ front last, filled.commands = front ++ [last] ∧
        gatheredFrom front < draft.bufferLimit) := by
  induction h with
  | refl => exact ⟨hcounts, rfl, .inl rfl⟩
  | @push filled command _ hfits ih =>
    obtain ⟨hcounted, hlimit, -⟩ := ih
    rw [fits, Bool.and_eq_true, Bool.and_eq_true, decide_eq_true_iff, hcounted, hlimit] at hfits
    exact ⟨hcounted.push command, hlimit, .inr ⟨filled.commands, command, rfl, hfits.1.2⟩⟩

end Draft

namespace Peer

variable {peer after : Peer} {now : Stamp} {check : Bool}

/-- A datagram is gathered from at most one buffer more than the settings allow, and from one more
exactly if its last command carries a payload for which no buffer was left; it is never gathered
from more than two buffers for each command that the settings allow and one. -/
theorem datagram_buffers {datagram : Bytes}
    (h : peer.compose now check = (.ok (.datagram datagram), after)) :
    gatheredFrom (peer.contents datagram) ≤ peer.settings.buffersPerDatagram + 1 ∧
      (peer.settings.buffersPerDatagram < gatheredFrom (peer.contents datagram) ↔
        ∃ front last, peer.contents datagram = front ++ [last] ∧ last.hasPayload = true ∧
          gatheredFrom front + 1 = peer.settings.buffersPerDatagram) ∧
      gatheredFrom (peer.contents datagram) ≤ 1 + 2 * peer.settings.commandsPerDatagram := by
  have hyields := peer.compose_yields now check
  rw [h] at hyields
  cases hyields with
  | @datagram draft _ _ _ _ _ hfill hsome hbytes =>
    have hcounts : peer.draft.Counts := rfl
    obtain ⟨-, -, hlast⟩ := (fill_fills hfill).gathers hcounts
    have hmost := length_commands_le_of_fill hfill
    have htotal := gatheredFrom_le draft.commands
    obtain ⟨front, last, hcommands, hroom⟩ := hlast.resolve_left hsome
    rw [contents_of_encodeDatagram (congrArg Terms.settings (terms_fill hfill)) hbytes]
    have hbuffers := gatheredFrom_concat front last
    change _ < peer.settings.buffersPerDatagram at hroom
    have hleast := last.buffers_pos
    have hsize := last.buffers_le_two
    refine ⟨by rw [hcommands]; omega, ⟨fun hover ↦ ?_, ?_⟩, by omega⟩
    · rw [hcommands, hbuffers] at hover
      refine ⟨front, last, hcommands, ?_, by omega⟩
      by_contra hplain
      rw [Command.buffers, if_neg hplain] at hover
      omega
    · rintro ⟨others, final, hsame, hpayload, hfull⟩
      rw [hsame, gatheredFrom_concat, Command.buffers, if_pos hpayload]
      omega

/-- Settings under which a datagram may be gathered from four buffers. -/
def scant : Settings := { buffersPerDatagram := 4 }

def pair : List Action :=
  let context : Context := ⟨1000, 0, 0⟩
  [.connect ⟨"10.0.0.1", 4000⟩ 1 7 context,
    .handle ⟨0, 0, 1, 1000, 7⟩ ⟨controlChannel, Command.acknowledgeFlag, 1,
      .verifyConnect ⟨3, 1400, 32768, 1, 0, 0, Settings.throttle {}⟩⟩ context,
    .compose 1000 true, .send 0 ⟨[1], .reliable⟩, .send 0 ⟨[2], .reliable⟩]

/-- Both go out in one datagram, which takes a fifth buffer for the payload of the second. -/
theorem datagram_buffers_pair : ∃ events peer datagram after,
    (vacant 0 scant).run pair = .ok (events, peer) ∧
      peer.compose 1000 true = (.ok (.datagram datagram), after) ∧
      peer.settings.buffersPerDatagram = 4 ∧ gatheredFrom (peer.contents datagram) = 5 ∧
      ∃ front last, peer.contents datagram = front ++ [last] ∧ last.hasPayload = true ∧
        gatheredFrom front = 3 := by
  have hreplay : ((vacant 0 scant).run pair).toOption.any (fun result ↦
      result.2.settings.buffersPerDatagram == 4 &&
        gatheredFrom (result.2.carried (result.2.compose 1000 true).1) == 5) = true := by
    decide +kernel
  obtain ⟨⟨events, peer⟩, hrun, hends⟩ := exists_of_any_toOption hreplay
  simp only [Bool.and_eq_true, beq_iff_eq] at hends
  obtain ⟨hlimit, hfive⟩ := hends
  cases hcompose : peer.compose 1000 true with
  | mk result after =>
    rw [hcompose] at hfive
    obtain ⟨datagram, rfl⟩ : ∃ datagram, result = .ok (.datagram datagram) := by
      rcases result with _ | _ | datagram | _
      · cases hfive
      · cases hfive
      · exact ⟨datagram, rfl⟩
      · cases hfive
    change gatheredFrom (peer.contents datagram) = 5 at hfive
    obtain ⟨-, hover, -⟩ := datagram_buffers hcompose
    obtain ⟨front, last, hcontents, hpayload, hfull⟩ := hover.mp (by rw [hlimit, hfive]; decide)
    rw [hlimit] at hfull
    exact ⟨events, peer, datagram, after, hrun, hcompose, hlimit, hfive, front, last, hcontents,
      hpayload, by omega⟩

end Peer

end ReliableDatagram
