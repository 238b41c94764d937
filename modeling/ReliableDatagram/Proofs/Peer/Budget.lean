import ReliableDatagram.Proofs.Peer.Terms
import Mathlib.Algebra.GroupWithZero.Nat

/-!
# How large a datagram gets

A draft is filled command by command, and every command is added only if it still fits. So a
draft counts the bytes of its commands, and those of the header and the trailer, and keeps to
its limits; and a datagram is as long as its draft says.
-/

namespace ReliableDatagram

/-! ## The length of what is laid out -/

namespace Datagram

theorem length_encodeCommands {commands : List Command} {bytes : Bytes}
    (h : encodeCommands commands = .ok bytes) :
    bytes.length = (commands.map (·.encodedLength)).sum := by
  induction commands generalizing bytes with
  | nil =>
    cases h
    rfl
  | cons command rest ih =>
    obtain ⟨-, others, hothers, rfl⟩ := encodeCommands_cons h
    rw [List.length_append, Command.length_layout, ih hothers, List.map_cons, List.sum_cons]

theorem length_encode {header : Header} {commands : List Command} {bytes : Bytes}
    (h : encode header commands = .ok bytes) :
    bytes.length = Header.size + (commands.map (·.encodedLength)).sum := by
  unfold encode at h
  split at h
  · cases hcommands : encodeCommands commands with
    | error error =>
      rw [hcommands] at h
      cases h
    | ok others =>
      rw [hcommands] at h
      cases h
      rw [List.length_append, Header.length_encode, length_encodeCommands hcommands]
  · cases h

end Datagram

theorem Checksum.length_append (digest : Bytes → UInt32) (bytes : Bytes) :
    (append digest bytes).length = bytes.length + size := by
  rw [append, List.length_append, Bytes.length_write32, size]

/-! ## Filling a draft -/

/-- A draft has become the other one by commands that fitted, one after the other. -/
inductive Draft.Fills (draft : Draft) : Draft → Prop where
  | refl : Fills draft draft
  | push {filled : Draft} {command : Command} (h : Fills draft filled)
      (hfits : filled.fits command = true) : Fills draft (filled.push command)

namespace Draft

variable {draft filled after : Draft}

theorem Fills.trans (h : draft.Fills filled) (hmore : filled.Fills after) : draft.Fills after := by
  induction hmore with
  | refl => exact h
  | push _ hfits ih => exact ih.push hfits

/-- A command that fits comes first. -/
theorem Fills.head {command : Command} (hfits : draft.fits command = true)
    (h : (draft.push command).Fills filled) : draft.Fills filled :=
  (Fills.refl.push hfits).trans h

/-- A draft counts the bytes of its commands, and commands are added only within its limits. -/
theorem Fills.budget (h : draft.Fills filled) :
    filled.sizeLimit = draft.sizeLimit ∧ ∃ added, filled.commands = draft.commands ++ added ∧
      filled.size = draft.size + (added.map (·.encodedLength)).sum ∧
      (added ≠ [] → filled.size ≤ filled.sizeLimit) := by
  induction h with
  | refl => exact ⟨rfl, [], (List.append_nil _).symm, rfl, fun hnil ↦ absurd rfl hnil⟩
  | @push filled command _ hfits ih =>
    obtain ⟨hlimit, added, hcommands, hsize, -⟩ := ih
    refine ⟨hlimit, added ++ [command], ?_, ?_, fun _ ↦ ?_⟩
    · rw [Draft.push, hcommands, List.append_assoc]
    · rw [Draft.push, hsize, List.map_append, List.sum_append, List.map_singleton,
        List.sum_singleton, Nat.add_assoc]
    · -- The command has a length, so there was room before it was added.
      have hlength := command.commonSize_le_encodedLength
      rw [fits, Bool.and_eq_true, decide_eq_true_iff] at hfits
      change filled.size + command.encodedLength ≤ filled.sizeLimit
      have hpositive : 0 < Tag.commonSize := by decide
      omega

/-- A draft counts its commands too. -/
theorem Fills.length_le (h : draft.Fills filled) :
    filled.commandLimit = draft.commandLimit ∧
      (draft.commands.length ≤ draft.commandLimit →
        filled.commands.length ≤ filled.commandLimit) := by
  induction h with
  | refl => exact ⟨rfl, id⟩
  | @push filled command _ hfits ih =>
    refine ⟨ih.1, fun _ ↦ ?_⟩
    rw [fits, Bool.and_eq_true, Bool.and_eq_true, hasRoom, decide_eq_true_iff] at hfits
    rw [Draft.push, List.length_append]
    exact hfits.1.1

/-- A draft that holds nothing in the end never did. -/
theorem Fills.eq_nil (h : draft.Fills filled) (hnone : filled.commands = []) :
    draft.commands = [] := by
  obtain ⟨-, added, hcommands, -⟩ := h.budget
  rw [hnone] at hcommands
  exact (List.append_eq_nil_iff.mp hcommands.symm).1

/-- A draft that a command was added to holds something, whatever came after it. -/
theorem Fills.ne_nil {command : Command} (h : (draft.push command).Fills filled) :
    filled.commands ≠ [] := fun hnone ↦
  absurd (h.eq_nil hnone) (List.append_ne_nil_of_right_ne_nil _ (List.cons_ne_nil _ _))

end Draft

namespace Peer

theorem sendAcknowledgements_fills (peer : Peer) (draft : Draft)
    (waiting : List Acknowledgement) :
    draft.Fills (peer.sendAcknowledgements draft waiting).1 := by
  induction waiting generalizing peer draft with
  | nil => exact .refl
  | cons acknowledgement rest ih =>
    unfold sendAcknowledgements
    split
    · rename_i hfits
      exact .head hfits (ih ..)
    · exact .refl

theorem sendReliable_fills (peer : Peer) (draft : Draft) (now : Stamp) (queue : List Outgoing) :
    draft.Fills (peer.sendReliable draft now queue).1 := by
  induction queue generalizing peer draft with
  | nil => exact .refl
  | cons outgoing rest ih =>
    unfold sendReliable
    split
    · rename_i hfits
      exact .head (Bool.and_eq_true_iff.mp hfits).1 (ih ..)
    · exact .refl

theorem sendUnreliable_fills (peer : Peer) (draft : Draft) (queue : List Outgoing) :
    draft.Fills (peer.sendUnreliable draft queue).1 := by
  induction queue generalizing peer draft with
  | nil => exact .refl
  | cons outgoing rest ih =>
    unfold sendUnreliable
    split
    · rename_i hfits
      split
      · dsimp only
        split
        · exact .head hfits (ih ..)
        · exact ih ..
      · exact .head hfits (ih ..)
    · exact .refl

theorem fillReliable_fills (peer : Peer) (draft : Draft) (now : Stamp) :
    draft.Fills (peer.fillReliable draft now).1 := by
  unfold fillReliable
  split
  · exact sendReliable_fills ..
  · split
    · exact sendReliable_fills ..
    · exact .refl

variable {peer after : Peer} {now : Stamp} {check : Bool}

theorem fill_fills {draft : Draft} (h : peer.fill now check = (some draft, after)) :
    peer.draft.Fills draft :=
  fill_induction (fun first _ second _ ↦ first.Fills second) .trans
    (fun _ _ ↦ sendAcknowledgements_fills ..) (fun _ ↦ .refl) (fun _ _ ↦ fillReliable_fills ..)
    (fun _ _ ↦ sendUnreliable_fills ..) h

/-- A draft that is filled holds no more commands than the settings allow. -/
theorem length_commands_le_of_fill {draft : Draft} (h : peer.fill now check = (some draft, after)) :
    draft.commands.length ≤ peer.settings.commandsPerDatagram := by
  obtain ⟨hlimit, hwithin⟩ := (fill_fills h).length_le
  exact Nat.le_trans (hwithin (Nat.zero_le _)) (Nat.le_of_eq hlimit)

/-- A draft that is filled has counted the bytes of its commands, and keeps to what the connection
allows. -/
theorem size_of_fill {draft : Draft} (h : peer.fill now check = (some draft, after)) :
    draft.size = peer.draft.size + (draft.commands.map (·.encodedLength)).sum ∧
      (draft.commands ≠ [] → draft.size ≤ peer.mtu.toNat) := by
  obtain ⟨hlimit, added, hcommands, hsize, hwithin⟩ := (fill_fills h).budget
  rw [show peer.draft.commands = [] from rfl, List.nil_append] at hcommands
  subst hcommands
  exact ⟨hsize, fun hsome ↦ Nat.le_trans (hwithin hsome) (Nat.le_of_eq hlimit)⟩

/-- An empty draft counts the header, and the trailer if there is to be one. -/
theorem size_draft (peer : Peer) : peer.draft.size =
    Header.size + if peer.settings.checksums then Checksum.size else 0 := rfl

theorem length_encodeDatagram {commands : List Command} {bytes : Bytes}
    (h : peer.encodeDatagram commands now = .ok bytes) :
    bytes.length = peer.draft.size + (commands.map (·.encodedLength)).sum := by
  unfold encodeDatagram at h
  cases hcontent : Datagram.encode (peer.header now) commands with
  | error error =>
    rw [hcontent] at h
    cases h
  | ok content =>
    rw [hcontent] at h
    cases h
    have hlength := Datagram.length_encode hcontent
    rw [size_draft]
    split
    · rw [Checksum.length_append, hlength]
      omega
    · rw [hlength]
      omega

/-- No datagram is longer than the connection allows. -/
theorem length_le_of_compose {bytes : Bytes}
    (h : (peer.compose now check).1 = .ok (.datagram bytes)) : bytes.length ≤ peer.mtu.toNat := by
  have hyields := peer.compose_yields now check
  generalize peer.compose now check = composed at h hyields
  obtain ⟨result, last⟩ := composed
  subst h
  cases hyields with
  | @datagram draft after _ _ _ _ hfill hsome hbytes =>
    obtain ⟨hsize, hwithin⟩ := size_of_fill hfill
    have hlength : bytes.length = draft.size := by
      rw [length_encodeDatagram hbytes, size_draft,
        show after.settings = peer.settings from congrArg Terms.settings (terms_fill hfill),
        ← size_draft, ← hsize]
    rw [hlength]
    exact hwithin hsome

end Peer

end ReliableDatagram
