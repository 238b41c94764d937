import ReliableDatagram.Proofs.Peer.Deadlines
import ReliableDatagram.Proofs.Peer.Transit

/-!
# What becomes of overdue commands

The flight is parted by one pass that takes the commands in their order. Those that still have
time stay in flight; of each other one what it carries is taken from what is in transit, it is
counted as lost, and it is kept with twice its timeout. When the pass is over, the commands that
were kept are put before those that wait, the last one first. If the pass comes to a command that
has been sent as often as it may, the connection is given up. In any case the commands in flight
are due when the oldest of them is.
-/

namespace ReliableDatagram

namespace Peer

variable {peer after : Peer} {now : Stamp} {settings : Settings} {id : UInt16}

def late (peer : Peer) (now : Stamp) : List Outgoing :=
  peer.sent.filter fun outgoing ↦ !decide (Stamp.distance now outgoing.sentTime < outgoing.timeout)

theorem late_eq (peer : Peer) (now : Stamp) :
    peer.late now = peer.sent.filter (·.isOverdue now) := by
  refine List.filter_congr fun outgoing _ ↦ ?_
  rw [← decide_not, Outgoing.isOverdue]
  exact decide_eq_decide.mpr UInt32.not_lt

/-- A command that has no time left has been sent as often as it may. -/
def Exhausts (peer : Peer) (now : Stamp) : Prop :=
  ∃ outgoing ∈ peer.late now, outgoing.timeoutLimit ≤ outgoing.timeout

/-- The commands in flight that have time left stay there, and all others wait to be sent again, in
their order and each with twice its timeout, before those that waited already. So no command is
missing, and none is there more often than before. The others are counted, in all and for the
interval in which the loss is sampled, and what they carry is no longer in transit. When the oldest
command in flight is due, all are looked at again, and nothing else has changed. -/
structure Parts (now : Stamp) (peer after : Peer) : Prop where
  sent : after.sent = peer.sent.filter fun outgoing ↦
    Stamp.distance now outgoing.sentTime < outgoing.timeout
  reliable : after.reliable = (peer.late now).map (fun outgoing ↦
    { outgoing with timeout := Word.mulSat outgoing.timeout 2 }) ++ peer.reliable
  outstanding : after.outstanding.Perm peer.outstanding
  commandsLost : after.traffic.commandsLost = peer.traffic.commandsLost + (peer.late now).length
  lossMeter : after.lossMeter =
    { peer.lossMeter with lost := peer.lossMeter.lost + UInt32.ofNat (peer.late now).length }
  inTransit : after.inTransit.toNat =
    peer.inTransit.toNat - ((peer.late now).map (·.payloadLength.toNat)).sum
  timed : Timed after
  elsewhere : after = { peer with
    sent := after.sent
    reliable := after.reliable
    traffic := { peer.traffic with commandsLost := after.traffic.commandsLost }
    lossMeter := after.lossMeter
    inTransit := after.inTransit
    nextTimeout := after.nextTimeout }

theorem foldl_recordLost (overdue : List Outgoing) (meter : LossMeter) :
    overdue.foldl (fun meter _ ↦ meter.recordLost) meter =
      { meter with lost := meter.lost + UInt32.ofNat overdue.length } := by
  induction overdue generalizing meter with
  | nil => simp
  | cons outgoing rest ih =>
    rw [List.foldl_cons, ih, List.length_cons, LossMeter.recordLost, Nat.add_comm,
      UInt32.ofNat_add, UInt32.add_assoc]
    rfl

/-- The connection is given up exactly if some command has no time left and has been sent as often
as it may. -/
theorem checkTimeouts_exhausts_iff (peer : Peer) (now : Stamp) :
    (peer.checkTimeouts now).1 = true ↔ peer.Exhausts now := by
  have hexhausts : (peer.sent.filter (·.isOverdue now)).any (·.isExhausted) = true ↔
      peer.Exhausts now := by
    simp only [Exhausts, late_eq, List.any_eq_true, Outgoing.isExhausted, decide_eq_true_eq]
  rw [checkTimeouts_eq_ite, ← hexhausts]
  split
  · rename_i hexhausted
    exact ⟨fun _ ↦ hexhausted, fun _ ↦ rfl⟩
  · rename_i hspared
    exact ⟨fun hgaveUp ↦ absurd hgaveUp Bool.false_ne_true, fun hexhausted ↦
      absurd hexhausted hspared⟩

theorem parts_checkTimeouts (h : peer.checkTimeouts now = (false, after)) :
    Parts now peer after := by
  have htimed := checkTimeouts_timed h
  have houtstanding := (checkTimeouts_draws h).outstanding
  rw [checkTimeouts_eq_ite] at h
  split at h
  · cases h
  · obtain ⟨nextTimeout, hrefreshed⟩ := refreshTimeout_eq _
    rw [hrefreshed, ← late_eq] at h
    cases h
    refine ⟨?_, rfl, houtstanding, rfl, foldl_recordLost _ _,
      toNat_foldl_subSat_payloadLength _ _, htimed, rfl⟩
    refine List.filter_congr fun outgoing _ ↦ ?_
    rw [Outgoing.isOverdue, ← decide_not]
    exact decide_eq_decide.mpr UInt32.not_le

/-- Looking for overdue commands gives the connection up exactly if one of them has been sent as
often as it may, and parts the flight otherwise. In every state that a peer comes to, the time at
which they are looked for is the sending time of the oldest command in flight and its timeout. -/
theorem checkTimeouts_parts_and_reached_timed :
    (∀ (peer : Peer) (now : Stamp),
      ((peer.checkTimeouts now).1 = true ↔ peer.Exhausts now) ∧
        ((peer.checkTimeouts now).1 = false → Parts now peer (peer.checkTimeouts now).2)) ∧
    ∀ (id : UInt16) (settings : Settings) (peer : Peer), Reached id settings peer →
      ∀ oldest rest, peer.sent = oldest :: rest →
        peer.nextTimeout = oldest.sentTime + oldest.timeout := by
  refine ⟨fun peer now ↦ ⟨peer.checkTimeouts_exhausts_iff now, fun hspared ↦ ?_⟩, ?_⟩
  · exact parts_checkTimeouts (Prod.ext hspared rfl)
  · intro id settings peer hreached
    exact hreached.scheduled.timed

/-- A packet that was sent again has more time than one that was sent after it, so only the second
one is overdue. -/
theorem checkTimeouts_parts_straggling : ∃ events peer,
    (vacant 0 {}).run straggling = .ok (events, peer) ∧
      Parts 2200 peer (peer.checkTimeouts 2200).2 ∧
      (peer.checkTimeouts 2200).2.sent.length = 1 ∧
      (peer.checkTimeouts 2200).2.reliable.length = 1 ∧
      ∃ oldest rest, peer.sent = oldest :: rest ∧
        peer.nextTimeout = oldest.sentTime + oldest.timeout := by
  have hreplay : ((vacant 0 {}).run straggling).toOption.any (fun result ↦
      !(result.2.checkTimeouts 2200).1 && (result.2.checkTimeouts 2200).2.sent.length == 1 &&
        (result.2.checkTimeouts 2200).2.reliable.length == 1 &&
        !result.2.sent.isEmpty) = true := by
    decide +kernel
  obtain ⟨⟨events, peer⟩, hrun, hends⟩ := exists_of_any_toOption hreplay
  simp only [Bool.and_eq_true, beq_iff_eq, Bool.not_eq_true'] at hends
  obtain ⟨⟨⟨hspared, hsent⟩, hreliable⟩, hflight⟩ := hends
  obtain ⟨oldest, rest, hcons⟩ := List.exists_cons_of_ne_nil (List.isEmpty_eq_false_iff.mp hflight)
  have hreached : Reached 0 {} peer := Reached.vacant.run hrun
  exact ⟨events, peer, hrun, (checkTimeouts_parts_and_reached_timed.1 peer 2200).2 hspared, hsent,
    hreliable, oldest, rest, hcons,
    checkTimeouts_parts_and_reached_timed.2 0 {} peer hreached oldest rest hcons⟩

end Peer

end ReliableDatagram
