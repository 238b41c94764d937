import ReliableDatagram.Proofs.Peer.Contents

/-!
# How many datagrams a peer has to send

At one moment a peer has to send what waits, what is in flight and overdue, and at most a ping,
which is queued only where nothing else is in flight. Every command of a datagram takes one of
these away for good: a command that goes out again is not overdue at the moment at which it goes
out, and it keeps the ping back. So a peer that is asked for datagrams again and again has none
left after as many of them.
-/

namespace ReliableDatagram

namespace Peer

variable {peer after : Peer} {now : Stamp} {check : Bool} {manifest : Manifest}

/-! ## What is left to send -/

/-- A ping may still be queued: no command in flight keeps it back for longer. -/
def spare (peer : Peer) (now : Stamp) : Nat :=
  if peer.sent.all (·.isOverdue now) then 1 else 0

/-- How many commands a peer can send at a moment. -/
def burden (peer : Peer) (now : Stamp) : Nat :=
  peer.acknowledgements.length + peer.reliable.length + peer.unreliable.length +
    peer.sent.countP (·.isOverdue now) + peer.spare now

theorem spare_le_one (peer : Peer) (now : Stamp) : peer.spare now ≤ 1 := by
  unfold spare
  split <;> decide

theorem burden_le (peer : Peer) (now : Stamp) : peer.burden now ≤
    peer.acknowledgements.length + peer.reliable.length + peer.unreliable.length +
      peer.sent.length + 1 := by
  have hoverdue : peer.sent.countP (·.isOverdue now) ≤ peer.sent.length := List.countP_le_length
  have hspare := peer.spare_le_one now
  rw [burden]
  omega

/-- Overdue commands are taken out of flight or stay overdue. -/
theorem Ships.countP_sent (h : peer.Ships now check manifest after) :
    manifest.overdue.length + after.sent.countP (·.isOverdue now) =
      peer.sent.countP (·.isOverdue now) := by
  have hstamped : (manifest.taken.map (peer.stamp · now)).countP (·.isOverdue now) = 0 := by
    rw [List.countP_eq_zero]
    intro outgoing hmem
    obtain ⟨other, -, rfl⟩ := List.mem_map.mp hmem
    rw [stamp_isOverdue]
    exact Bool.false_ne_true
  rw [h.sent, List.countP_append, hstamped, Nat.add_zero]
  rcases h.parts with ⟨hnone, hawaited⟩ | ⟨hoverdue, hawaited⟩
  · rw [hnone, hawaited, List.length_nil, Nat.zero_add]
  · have hrest : (peer.sent.filter (!·.isOverdue now)).countP (·.isOverdue now) = 0 := by
      rw [List.countP_eq_zero]
      intro outgoing hmem hlate
      have hnot := (List.mem_filter.mp hmem).2
      rw [hlate] at hnot
      cases hnot
    rw [hoverdue, hawaited, hrest, ← List.countP_eq_length_filter, Nat.add_zero]

/-- Nothing is awaited for longer only if all that is in flight is overdue. -/
theorem Ships.all_awaited (h : peer.Ships now check manifest after) :
    manifest.awaited.all (·.isOverdue now) = peer.sent.all (·.isOverdue now) := by
  rcases h.parts with ⟨-, hawaited⟩ | ⟨-, hawaited⟩
  · rw [hawaited]
  · rw [hawaited, Bool.eq_iff_iff, List.all_eq_true, List.all_eq_true]
    refine ⟨fun hall outgoing hmem ↦ ?_, fun hall outgoing hmem ↦
      hall outgoing (List.mem_of_mem_filter hmem)⟩
    by_contra hawaits
    have hkept : outgoing ∈ peer.sent.filter (!·.isOverdue now) :=
      List.mem_filter.mpr ⟨hmem, by rw [eq_false_of_ne_true hawaits]; rfl⟩
    exact hawaits (hall outgoing hkept)

/-- A ping that is queued goes out and keeps every other one back. -/
theorem Ships.spare_add_pings_le (h : peer.Ships now check manifest after) :
    after.spare now + manifest.pings.length ≤ peer.spare now := by
  have hflight : after.sent.all (·.isOverdue now) =
      (peer.sent.all (·.isOverdue now) && (manifest.taken.map (peer.stamp · now)).all
        (·.isOverdue now)) := by
    rw [h.sent, List.all_append, h.all_awaited]
  rcases h.pings with hnone | hping
  · rw [hnone, List.length_nil, Nat.add_zero, spare, spare, hflight]
    cases peer.sent.all (·.isOverdue now) with
    | false => exact Nat.le_refl 0
    | true =>
      rw [if_pos rfl]
      split <;> decide
  · have hsilent : peer.sent.all (·.isOverdue now) = true := by
      rw [← h.all_awaited, hping.awaited]
      rfl
    have hkept : after.sent.all (·.isOverdue now) = false := by
      rw [hflight, hping.taken, List.map_singleton, List.all_cons, stamp_isOverdue,
        Bool.false_and, Bool.and_false]
    rw [spare, spare, hsilent, hkept, hping.pings]
    exact Nat.le_refl 1

/-- Every command that goes out leaves one less to send. -/
theorem Ships.burden_add_length_le (h : peer.Ships now check manifest after) :
    after.burden now + manifest.commands.length ≤ peer.burden now := by
  have hacknowledgements := congrArg List.length h.acknowledgements
  have hreliable := congrArg List.length h.reliable
  have hunreliable := congrArg List.length h.unreliable
  have hpassed := h.throttle.sublist.length_le
  have hoverdue := h.countP_sent
  have hspare := h.spare_add_pings_le
  simp only [List.length_append, List.length_map] at hacknowledgements hreliable hunreliable
  simp only [burden, manifest.length_commands]
  omega

/-- Unless the connection is given up, composing leaves no more to send. -/
theorem burden_le_of_compose {result : Except EncodeError Composition}
    (h : peer.compose now check = (result, after)) (hgoes : result ≠ .ok .timedOut) :
    after.burden now ≤ peer.burden now := by
  rcases compose_ships h hgoes with ⟨rfl, -⟩ | ⟨manifest, hships, -⟩
  · exact Nat.le_refl _
  · exact Nat.le_trans (Nat.le_add_right _ _) hships.burden_add_length_le

/-- A datagram leaves less to send. -/
theorem burden_lt_of_compose {datagram : Bytes}
    (h : peer.compose now check = (.ok (.datagram datagram), after)) :
    after.burden now < peer.burden now := by
  rcases compose_ships h (by simp) with ⟨-, hnothing⟩ | ⟨manifest, hships, hsome⟩
  · cases hnothing
  · have hlength := List.length_pos_iff.mpr (hsome datagram rfl)
    have hburden := hships.burden_add_length_le
    omega

/-! ## Datagrams until there is none -/

/-- Composing again and again at one moment brings so many datagrams before the first result that
is none. -/
inductive Empties (now : Stamp) (check : Bool) : Peer → Nat → Prop where
  | done {peer : Peer}
      (hnone : ∀ datagram, (peer.compose now check).1 ≠ .ok (.datagram datagram)) :
      Empties now check peer 0
  | more {peer after : Peer} {datagram : Bytes} {count : Nat}
      (hcompose : peer.compose now check = (.ok (.datagram datagram), after))
      (h : Empties now check after count) : Empties now check peer (count + 1)

/-- A peer has no more datagrams to send than commands. -/
theorem exists_empties (peer : Peer) (now : Stamp) (check : Bool) :
    ∃ count, count ≤ peer.burden now ∧ Empties now check peer count := by
  induction hburden : peer.burden now using Nat.strong_induction_on generalizing peer with
  | _ bound ih =>
    subst hburden
    by_cases hsome : ∃ datagram, (peer.compose now check).1 = .ok (.datagram datagram)
    · obtain ⟨datagram, hresult⟩ := hsome
      have hcompose : peer.compose now check =
          (.ok (.datagram datagram), (peer.compose now check).2) := Prod.ext hresult rfl
      have hless := burden_lt_of_compose hcompose
      obtain ⟨count, hcount, hempties⟩ := ih _ hless _ rfl
      exact ⟨count + 1, Nat.succ_le_of_lt (Nat.lt_of_le_of_lt hcount hless),
        .more hcompose hempties⟩
    · exact ⟨0, Nat.zero_le _, .done (not_exists.mp hsome)⟩

end Peer

end ReliableDatagram
