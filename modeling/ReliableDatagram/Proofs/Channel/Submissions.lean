import ReliableDatagram.Proofs.Channel.Reassembly
import Mathlib.Data.List.Flatten
import Mathlib.Data.Nat.Init
import Mathlib.Order.Monotone.Basic

/-!
# What was submitted on a channel

The packets that an application submits on one channel form a log. Reliable commands are
numbered through the whole log from 1, each fragment with a number of its own, and
unreliable packets are numbered among themselves. A position of the log stands for a
packet; the numbers spent before it say which numbers its commands have. As long as no
number passes the greatest word, positions and numbers are in the same order.
-/

namespace ReliableDatagram

structure Submission where
  channel : UInt8
  packet : Packet
  /-- The most payload bytes that a fragment carried at that time. -/
  fragmentLength : Nat
  /-- The reliable commands that were queued for it. -/
  commands : List Command
deriving DecidableEq, Repr

namespace Submission

/-- The packet was too large for one datagram. -/
def isFragmented (submission : Submission) : Bool :=
  decide (submission.fragmentLength < submission.packet.size)

/-- The packet travels reliably: it asks for it, or it is too large for one datagram. -/
def isReliable (submission : Submission) : Bool :=
  submission.isFragmented || submission.packet.isReliable

def isUnsequenced (submission : Submission) : Bool :=
  !submission.isReliable && submission.packet.isUnsequenced

/-- The packet travels unreliably but in sequence. -/
def isUnreliable (submission : Submission) : Bool :=
  !submission.isReliable && !submission.packet.isUnsequenced

/-- The packet as the other end delivers it. -/
def delivered (submission : Submission) : Packet :=
  ⟨submission.packet.payload,
    if submission.isReliable then .reliable
    else if submission.isUnsequenced then .unsequenced
    else .plain⟩

theorem isUnreliable_of_isReliable {submission : Submission}
    (h : submission.isReliable = true) : submission.isUnreliable = false := by
  rw [isUnreliable, h]
  rfl

theorem isUnsequenced_of_isUnreliable {submission : Submission}
    (h : submission.isUnreliable = true) : submission.isUnsequenced = false := by
  rw [isUnreliable, Bool.and_eq_true, Bool.not_eq_true', Bool.not_eq_true'] at h
  rw [isUnsequenced, h.2, Bool.and_false]

theorem delivered_of_isUnreliable {submission : Submission}
    (h : submission.isUnreliable = true) :
    submission.delivered = ⟨submission.packet.payload, .plain⟩ := by
  have hsequenced := isUnsequenced_of_isUnreliable h
  rw [isUnreliable, Bool.and_eq_true, Bool.not_eq_true', Bool.not_eq_true'] at h
  simp [delivered, h.1, hsequenced]

/-- The reliable commands of a packet, when so many numbers were spent before it. -/
def reliableCommands (submission : Submission) (before : Nat) : List Command :=
  if submission.isFragmented then
    (Fragment.ofPayload (UInt32.ofNat (before + 1)) submission.fragmentLength
      submission.packet.payload).mapIdx fun k fragment ↦
        ⟨submission.channel, Command.acknowledgeFlag, UInt32.ofNat (before + 1 + k),
          .sendFragment fragment⟩
  else if submission.packet.isReliable then
    [⟨submission.channel, Command.acknowledgeFlag, UInt32.ofNat (before + 1),
      .sendReliable submission.packet.payload⟩]
  else []

/-- Only unsequenced packets are delivered as such. -/
theorem flags_delivered_ne {submission : Submission} (h : submission.isUnsequenced = false) :
    submission.delivered.flags ≠ .unsequenced := by
  simp only [delivered, h]
  split <;> simp [PacketFlags.reliable, PacketFlags.plain, PacketFlags.unsequenced]

theorem flags_delivered {submission : Submission} :
    submission.delivered.flags = .reliable ↔ submission.isReliable = true := by
  simp only [delivered]
  split
  · rename_i hkind
    exact iff_of_true rfl hkind
  · rename_i hkind
    refine iff_of_false ?_ hkind
    split <;> simp [PacketFlags.reliable, PacketFlags.plain, PacketFlags.unsequenced]

/-- The command is one of the reliable ones of a packet, when so many numbers were spent
before it. -/
inductive Issues (submission : Submission) (before : Nat) : Command → Prop where
  | whole (hwhole : submission.isFragmented = false)
      (hreliable : submission.packet.isReliable = true) :
      Issues submission before ⟨submission.channel, Command.acknowledgeFlag,
        UInt32.ofNat (before + 1), .sendReliable submission.packet.payload⟩
  | fragment {k : Nat} {fragment : Fragment} (hrun : submission.isFragmented = true)
      (hfragment : (Fragment.ofPayload (UInt32.ofNat (before + 1)) submission.fragmentLength
        submission.packet.payload)[k]? = some fragment) :
      Issues submission before ⟨submission.channel, Command.acknowledgeFlag,
        UInt32.ofNat (before + 1 + k), .sendFragment fragment⟩

theorem isReliable_of_issues {submission : Submission} {before : Nat} {command : Command}
    (h : submission.Issues before command) : submission.isReliable = true := by
  cases h with
  | whole _ hreliable => rw [isReliable, hreliable, Bool.or_true]
  | fragment hrun => rw [isReliable, hrun, Bool.true_or]

theorem Issues.channel_eq {submission : Submission} {before : Nat} {command : Command}
    (h : submission.Issues before command) : command.channel = submission.channel := by
  cases h <;> rfl

theorem mem_reliableCommands {submission : Submission} {before : Nat} {command : Command} :
    command ∈ submission.reliableCommands before ↔ submission.Issues before command := by
  constructor
  · intro hmem
    unfold reliableCommands at hmem
    split at hmem
    · rename_i hrun
      obtain ⟨k, hk, rfl⟩ := List.mem_mapIdx.mp hmem
      exact .fragment hrun (List.getElem?_eq_getElem hk)
    · rename_i hwhole
      split at hmem
      · rename_i hreliable
        rw [List.mem_singleton.mp hmem]
        exact .whole (Bool.eq_false_iff.mpr hwhole) hreliable
      · cases hmem
  · intro hissues
    cases hissues with
    | whole hwhole hreliable => simp [reliableCommands, hwhole, hreliable]
    | @fragment k fragment hrun hfragment =>
      rw [reliableCommands, if_pos hrun, List.mem_mapIdx]
      obtain ⟨hk, hget⟩ := List.getElem?_eq_some_iff.mp hfragment
      exact ⟨k, hk, by rw [hget]⟩

/-- The command of an unreliable packet, when so many numbers of each kind were spent
before it. -/
def unreliableCommand (submission : Submission) (before unreliable : Nat) : Command :=
  ⟨submission.channel, 0, UInt32.ofNat before,
    .sendUnreliable (UInt32.ofNat (unreliable + 1)) submission.packet.payload⟩

/-! ## Numbers spent -/

def reliableBefore (log : List Submission) (position : Nat) : Nat :=
  ((log.take position).flatMap (·.commands)).length

def unreliableBefore (log : List Submission) (position : Nat) : Nat :=
  (log.take position).countP (·.isUnreliable)

variable {log more : List Submission} {submission : Submission} {i j : Nat}

theorem reliableBefore_succ (h : log[i]? = some submission) :
    reliableBefore log (i + 1) = reliableBefore log i + submission.commands.length := by
  simp [reliableBefore, List.take_add_one, h]

theorem unreliableBefore_succ (h : log[i]? = some submission) :
    unreliableBefore log (i + 1) =
      unreliableBefore log i + if submission.isUnreliable then 1 else 0 := by
  simp [unreliableBefore, List.take_add_one, h, List.countP_cons]

theorem reliableBefore_mono (log : List Submission) : Monotone (reliableBefore log) :=
  fun _ _ h ↦ ((List.take_sublist_take_left h).flatMap _).length_le

theorem unreliableBefore_mono (log : List Submission) : Monotone (unreliableBefore log) :=
  fun _ _ h ↦ (List.take_sublist_take_left h).countP_le

theorem reliableBefore_append (more : List Submission) (h : i ≤ log.length) :
    reliableBefore (log ++ more) i = reliableBefore log i := by
  rw [reliableBefore, List.take_append_of_le_length h, reliableBefore]

theorem unreliableBefore_append (more : List Submission) (h : i ≤ log.length) :
    unreliableBefore (log ++ more) i = unreliableBefore log i := by
  rw [unreliableBefore, List.take_append_of_le_length h, unreliableBefore]

theorem getElem?_append_of_some (h : log[i]? = some submission) :
    (log ++ more)[i]? = some submission := by
  rw [List.getElem?_append_left (List.getElem?_eq_some_iff.mp h).1, h]

theorem getElem?_concat (log : List Submission) (submission : Submission) :
    (log ++ [submission])[log.length]? = some submission := by
  rw [List.getElem?_append_right (Nat.le_refl _), Nat.sub_self]
  rfl

theorem reliableBefore_concat (log : List Submission) (submission : Submission) :
    reliableBefore (log ++ [submission]) (log ++ [submission]).length =
      reliableBefore log log.length + submission.commands.length := by
  rw [List.length_append, List.length_singleton, reliableBefore_succ (getElem?_concat ..),
    reliableBefore_append _ (Nat.le_refl _)]

theorem unreliableBefore_concat (log : List Submission) (submission : Submission) :
    unreliableBefore (log ++ [submission]) (log ++ [submission]).length =
      unreliableBefore log log.length + if submission.isUnreliable then 1 else 0 := by
  rw [List.length_append, List.length_singleton, unreliableBefore_succ (getElem?_concat ..),
    unreliableBefore_append _ (Nat.le_refl _)]

/-! ## Logs as they arise -/

/-- The packets of a log were numbered one after the other, and no number has passed the
greatest word. -/
structure Numbered (log : List Submission) : Prop where
  commands : ∀ (i : Nat) (submission : Submission), log[i]? = some submission →
    submission.commands = submission.reliableCommands (reliableBefore log i)
  small : ∀ submission ∈ log, submission.packet.size < 4294967296
  positive : ∀ submission ∈ log, 0 < submission.fragmentLength
  reliable_lt : reliableBefore log log.length < 4294967296
  unreliable_lt : unreliableBefore log log.length < 4294967296

namespace Numbered

theorem nil : Numbered [] where
  commands := by simp
  small := by simp
  positive := by simp
  reliable_lt := by decide
  unreliable_lt := by decide

/-- A log grows by a packet with commands numbered from where it ends. -/
theorem concat (h : Numbered log)
    (hcommands : submission.commands =
      submission.reliableCommands (reliableBefore log log.length))
    (hsmall : submission.packet.size < 4294967296) (hpositive : 0 < submission.fragmentLength)
    (hreliable : reliableBefore (log ++ [submission]) (log ++ [submission]).length < 4294967296)
    (hunreliable : unreliableBefore (log ++ [submission]) (log ++ [submission]).length <
      4294967296) : Numbered (log ++ [submission]) where
  commands i other hget := by
    by_cases hi : i < log.length
    · rw [List.getElem?_append_left hi] at hget
      rw [reliableBefore_append _ (Nat.le_of_lt hi)]
      exact h.commands i other hget
    · have hlast : i = log.length := by
        have hlt := (List.getElem?_eq_some_iff.mp hget).1
        rw [List.length_append, List.length_singleton] at hlt
        omega
      rw [hlast, getElem?_concat, Option.some.injEq] at hget
      rw [hlast, ← hget, reliableBefore_append _ (Nat.le_refl _)]
      exact hcommands
  small other hmem := by
    rcases List.mem_append.mp hmem with hmem | hmem
    · exact h.small other hmem
    · rw [List.mem_singleton.mp hmem]
      exact hsmall
  positive other hmem := by
    rcases List.mem_append.mp hmem with hmem | hmem
    · exact h.positive other hmem
    · rw [List.mem_singleton.mp hmem]
      exact hpositive
  reliable_lt := hreliable
  unreliable_lt := hunreliable

theorem reliableBefore_lt (h : Numbered log) (i : Nat) : reliableBefore log i < 4294967296 := by
  refine Nat.lt_of_le_of_lt ?_ h.reliable_lt
  rw [reliableBefore, reliableBefore, List.take_length]
  exact ((List.take_sublist i log).flatMap _).length_le

theorem unreliableBefore_lt (h : Numbered log) (i : Nat) :
    unreliableBefore log i < 4294967296 := by
  refine Nat.lt_of_le_of_lt ?_ h.unreliable_lt
  rw [unreliableBefore, unreliableBefore, List.take_length]
  exact (List.take_sublist i log).countP_le

variable (h : Numbered log) (hget : log[i]? = some submission)
include h hget

theorem length_commands_of_isFragmented (hrun : submission.isFragmented = true) :
    submission.commands.length =
      (submission.packet.payload.chunks submission.fragmentLength).length := by
  rw [h.commands i submission hget, reliableCommands, if_pos hrun, List.length_mapIdx,
    Fragment.length_ofPayload]

theorem length_commands_of_whole (hwhole : submission.isFragmented = false)
    (hreliable : submission.packet.isReliable = true) : submission.commands.length = 1 := by
  simp [h.commands i submission hget, reliableCommands, hwhole, hreliable]

/-- A packet that travels reliably spends a number. -/
theorem length_commands_pos (hreliable : submission.isReliable = true) :
    0 < submission.commands.length := by
  have hmem := List.mem_of_getElem? hget
  cases hrun : submission.isFragmented with
  | true =>
    have hsize := of_decide_eq_true hrun
    have hpayload : submission.packet.payload ≠ [] := by
      intro hnil
      simp [Packet.size, hnil] at hsize
    rw [h.length_commands_of_isFragmented hget hrun,
      Bytes.chunks_eq (h.positive submission hmem) hpayload]
    simp
  | false =>
    rw [isReliable, hrun, Bool.false_or] at hreliable
    rw [h.length_commands_of_whole hget hrun hreliable]
    exact Nat.one_pos

theorem issues_of_mem {command : Command} (hmem : command ∈ submission.commands) :
    submission.Issues (reliableBefore log i) command := by
  rw [← mem_reliableCommands, ← h.commands i submission hget]
  exact hmem

/-- The commands of a packet have the numbers that are spent on it. -/
theorem sequence_of_issues {command : Command}
    (hissues : submission.Issues (reliableBefore log i) command) :
    reliableBefore log i < command.sequence.toNat ∧
      command.sequence.toNat ≤ reliableBefore log (i + 1) := by
  have hlt := h.reliableBefore_lt (i + 1)
  have hsucc := reliableBefore_succ hget
  cases hissues with
  | whole hwhole hreliable =>
    have hone := h.length_commands_of_whole hget hwhole hreliable
    simp only [UInt32.toNat_ofNat']
    omega
  | @fragment k fragment hrun hfragment =>
    have hlength := h.length_commands_of_isFragmented hget hrun
    have hk := (List.getElem?_eq_some_iff.mp hfragment).1
    rw [Fragment.length_ofPayload] at hk
    simp only [UInt32.toNat_ofNat']
    omega

end Numbered

/-- A reliable command of a log is known by its number. -/
theorem Numbered.eq_of_issues (h : Numbered log) {other : Submission} {command twin : Command}
    (hget : log[i]? = some submission) (hother : log[j]? = some other)
    (hcommand : submission.Issues (reliableBefore log i) command)
    (htwin : other.Issues (reliableBefore log j) twin)
    (hsequence : command.sequence = twin.sequence) : command = twin ∧ i = j := by
  have hbounds := h.sequence_of_issues hget hcommand
  have hbounds' := h.sequence_of_issues hother htwin
  rw [hsequence] at hbounds
  have hij : i < j + 1 := (reliableBefore_mono log).reflect_lt (by omega)
  have hji : j < i + 1 := (reliableBefore_mono log).reflect_lt (by omega)
  have hsame : i = j := by omega
  refine ⟨?_, hsame⟩
  subst hsame
  rw [hget, Option.some.injEq] at hother
  subst hother
  cases hcommand with
  | whole hwhole _ =>
    cases htwin with
    | whole => rfl
    | fragment hrun =>
      rw [hwhole] at hrun
      cases hrun
  | @fragment k fragment hrun hfragment =>
    cases htwin with
    | whole hwhole =>
      rw [hwhole] at hrun
      cases hrun
    | @fragment l twin _ htwin =>
      have hlt := h.reliableBefore_lt (i + 1)
      have hsucc := reliableBefore_succ hget
      have hlength := h.length_commands_of_isFragmented hget hrun
      have hk := (List.getElem?_eq_some_iff.mp hfragment).1
      have hl := (List.getElem?_eq_some_iff.mp htwin).1
      rw [Fragment.length_ofPayload] at hk hl
      have hkl : k = l := by
        have hnumber := congrArg UInt32.toNat hsequence
        simp only [UInt32.toNat_ofNat'] at hnumber
        omega
      subst hkl
      rw [hfragment, Option.some.injEq] at htwin
      rw [htwin]

end Submission

end ReliableDatagram
