import ReliableDatagram.Proofs.Host.Slots
import Mathlib.Algebra.Order.BigOperators.Group.List
import Mathlib.Algebra.Order.Group.Nat
import Mathlib.Algebra.Ring.Nat
import Mathlib.Data.List.ReduceOption

/-!
# Sweeps over the connections that stand

Bandwidth is shared in sweeps over the slots, and what a sweep keeps is told by figures that
are added up over the connections that stand. A sweep changes one connection after the other;
what holds of the whole table before and after each of these changes holds of it after the
sweep.
-/

namespace ReliableDatagram

namespace Allocator

/-- The connections in some slots that stand, in the order of their slots. -/
def connected (slots : List (Option Peer)) : List Peer :=
  slots.reduceOption.filter (·.state == .connected)

/-- What a figure of the connections that stand adds up to. -/
def total (figure : Peer → Nat) (slots : List (Option Peer)) : Nat :=
  ((connected slots).map figure).sum

end Allocator

def SlotTable.connected (table : SlotTable) : List Peer := Allocator.connected table.slots.toList

namespace Allocator

open SlotTable

variable {slots later after : List (Option Peer)} {peer next : Peer} {figure : Peer → Nat}
  {becomes : Peer → Peer → Prop}

/-! ## The connections that stand -/

@[simp]
theorem connected_nil : connected [] = [] := rfl

@[simp]
theorem connected_vacant (slots : List (Option Peer)) :
    connected (none :: slots) = connected slots := rfl

theorem connected_occupied (peer : Peer) (slots : List (Option Peer)) :
    connected (some peer :: slots) =
      if peer.state = .connected then peer :: connected slots else connected slots := by
  rw [connected, List.reduceOption_cons_of_some, List.filter_cons]
  simp only [beq_iff_eq]
  rfl

theorem connected_append (slots later : List (Option Peer)) :
    connected (slots ++ later) = connected slots ++ connected later := by
  rw [connected, List.reduceOption_append, List.filter_append]
  rfl

theorem state_of_mem_connected (h : peer ∈ connected slots) : peer.state = .connected := by
  simpa using List.of_mem_filter h

theorem mem_connected : peer ∈ connected slots ↔ some peer ∈ slots ∧ peer.state = .connected := by
  rw [connected, List.mem_filter, List.reduceOption_mem_iff, beq_iff_eq]

theorem mem_connected_of_get? {table : SlotTable} {id : PeerId} (h : table.get? id = some peer)
    (hstate : peer.state = .connected) : peer ∈ table.connected := by
  refine mem_connected.mpr ⟨?_, hstate⟩
  rw [SlotTable.get?, Option.join_eq_some_iff] at h
  exact Array.mem_toList_iff.mpr (Array.mem_of_getElem? h)

theorem exists_get?_of_slotwise {table after : SlotTable} {id : PeerId}
    (h : Slotwise becomes table.slots.toList after.slots.toList)
    (hpeer : table.get? id = some peer) :
    ∃ next, after.get? id = some next ∧ becomes peer next := by
  have hslot := h.join id.index
  rw [Array.getElem?_toList, Array.getElem?_toList] at hslot
  rw [SlotTable.get?] at hpeer ⊢
  rw [hpeer] at hslot
  generalize after.slots[id.index]?.join = slot at hslot ⊢
  cases hslot with
  | some hbecomes => exact ⟨_, rfl, hbecomes⟩

theorem length_connected_le (slots : List (Option Peer)) :
    (connected slots).length ≤ slots.length :=
  (List.length_filter_le _ _).trans (List.reduceOption_length_le slots)

theorem length_connected (table : SlotTable) :
    table.connected.length = table.connectedCount := by
  rw [SlotTable.connected, connectedCount, ← Array.countP_toList]
  induction table.slots.toList with
  | nil => rfl
  | cons slot rest ih =>
    cases slot with
    | none => simpa using ih
    | some peer =>
      rw [connected_occupied, List.countP_cons, ← ih]
      by_cases hstate : peer.state = .connected <;> simp [hstate]

/-- Where no state changes, the connections that stand remain the same ones. -/
theorem connected_of_slotwise (h : Slotwise becomes slots after)
    (hstate : ∀ peer next, becomes peer next → next.state = peer.state) :
    List.Forall₂ becomes (connected slots) (connected after) := by
  induction h with
  | nil => exact .nil
  | cons hhead _ ih =>
    cases hhead with
    | none => exact ih
    | some hbecomes =>
      rw [connected_occupied, connected_occupied, hstate _ _ hbecomes]
      split
      · exact .cons hbecomes ih
      · exact ih

/-- What becomes of a connection in one of the slots is in one of the slots afterwards. -/
theorem slotwise_mem (h : Slotwise becomes slots after) :
    Slotwise (fun peer next ↦ becomes peer next ∧ some peer ∈ slots ∧ some next ∈ after)
      slots after := by
  induction h with
  | nil => exact .nil
  | cons hhead _ ih =>
    refine .cons ?_ (ih.imp fun peer next ⟨hbecomes, hpeer, hnext⟩ ↦
      ⟨hbecomes, List.mem_cons_of_mem _ hpeer, List.mem_cons_of_mem _ hnext⟩)
    cases hhead with
    | none => exact .none
    | some hbecomes => exact .some ⟨hbecomes, List.mem_cons_self, List.mem_cons_self⟩

/-! ## Figures -/

theorem total_append (figure : Peer → Nat) (slots later : List (Option Peer)) :
    total figure (slots ++ later) = total figure slots + total figure later := by
  rw [total, connected_append, List.map_append, List.sum_append]
  rfl

/-- The share of one connection in a sum. -/
theorem total_occupied (figure : Peer → Nat) (hstate : peer.state = .connected)
    (slots later : List (Option Peer)) :
    total figure (slots ++ some peer :: later) =
      total figure slots + figure peer + total figure later := by
  rw [total_append, total, total, connected_occupied, if_pos hstate, List.map_cons,
    List.sum_cons, ← Nat.add_assoc]
  rfl

theorem total_one (slots : List (Option Peer)) :
    total (fun _ ↦ 1) slots = (connected slots).length := by
  rw [total, List.map_const', List.sum_replicate_nat, Nat.mul_one]

theorem total_le_total {other : Peer → Nat}
    (h : ∀ peer ∈ connected slots, figure peer ≤ other peer) :
    total figure slots ≤ total other slots :=
  List.sum_le_sum h

theorem total_eq_zero (h : ∀ peer ∈ connected slots, figure peer = 0) : total figure slots = 0 := by
  apply List.sum_eq_zero
  intro value hvalue
  obtain ⟨peer, hpeer, rfl⟩ := List.mem_map.mp hvalue
  exact h peer hpeer

theorem le_total (h : peer ∈ connected slots) : figure peer ≤ total figure slots :=
  List.single_le_sum (fun _ _ ↦ Nat.zero_le _) _ (List.mem_map_of_mem h)

theorem total_congr {other : Peer → Nat} (h : Slotwise becomes slots after)
    (hstate : ∀ peer next, becomes peer next → next.state = peer.state)
    (hfigure : ∀ peer next, becomes peer next → peer.state = .connected →
      figure peer = other next) : total figure slots = total other after := by
  unfold total
  induction h with
  | nil => rfl
  | cons hhead _ ih =>
    cases hhead with
    | none => exact ih
    | some hbecomes =>
      rw [connected_occupied, connected_occupied, hstate _ _ hbecomes]
      split
      · rename_i hconnected
        rw [List.map_cons, List.map_cons, List.sum_cons, List.sum_cons, ih,
          hfigure _ _ hbecomes hconnected]
      · exact ih

/-! ## Connections that have been set aside

Sharing sets a connection aside by stamping it with the present, for either kind of bandwidth. -/

section

variable {stamp : Peer → Stamp} {now : Stamp}

/-- A figure of the connections that have been set aside. -/
def aside (stamp : Peer → Stamp) (now : Stamp) (figure : Peer → Nat) (peer : Peer) : Nat :=
  if stamp peer = now then figure peer else 0

/-- A figure of the others. -/
def among (stamp : Peer → Stamp) (now : Stamp) (figure : Peer → Nat) (peer : Peer) : Nat :=
  if stamp peer = now then 0 else figure peer

theorem among_le (stamp : Peer → Stamp) (now : Stamp) (figure : Peer → Nat) (peer : Peer) :
    among stamp now figure peer ≤ figure peer := by
  unfold among
  split
  · exact Nat.zero_le _
  · exact Nat.le_refl _

/-- Where no connection is left among the others, all carry the stamp. -/
theorem stamp_eq_of_total_among (h : total (among stamp now fun _ ↦ 1) slots = 0)
    (hpeer : peer ∈ connected slots) : stamp peer = now := by
  by_contra hother
  have hone : among stamp now (fun _ ↦ 1) peer ≤ total (among stamp now fun _ ↦ 1) slots :=
    le_total hpeer
  rw [h, among, if_neg hother] at hone
  cases hone

theorem total_among_eq_zero (h : total (among stamp now fun _ ↦ 1) slots = 0)
    (figure : Peer → Nat) : total (among stamp now figure) slots = 0 :=
  total_eq_zero fun _ hpeer ↦ if_pos (stamp_eq_of_total_among h hpeer)

variable (hpeer : peer.state = .connected) (hnext : next.state = .connected)
  (hstamp : stamp peer ≠ now) (hstamped : stamp next = now)
include hpeer hnext hstamp hstamped

/-- Setting a connection aside takes its figure from those of the others. -/
theorem total_among_set (figure : Peer → Nat) (slots later : List (Option Peer)) :
    total (among stamp now figure) (slots ++ some peer :: later) =
      total (among stamp now figure) (slots ++ some next :: later) + figure peer := by
  rw [total_occupied _ hpeer, total_occupied _ hnext, among, if_neg hstamp, among, if_pos hstamped]
  omega

/-- Its figure is added to those of the connections that were set aside before. -/
theorem total_aside_set (figure : Peer → Nat) (slots later : List (Option Peer)) :
    total (aside stamp now figure) (slots ++ some next :: later) =
      total (aside stamp now figure) (slots ++ some peer :: later) + figure next := by
  rw [total_occupied _ hpeer, total_occupied _ hnext, aside, if_pos hstamped, aside, if_neg hstamp]
  omega

end

/-! ## What a sweep keeps -/

/-- What holds before a sweep, and is kept by every visit to a connection, of the slots that
have been visited and of those that have not, holds after the sweep. -/
theorem sweep_induction {β : Type} {visit : β → Peer → β × Peer}
    {invariant : β → List (Option Peer) → List (Option Peer) → Prop}
    (hvacant : ∀ state visited rest, invariant state visited (none :: rest) →
      invariant state (visited ++ [none]) rest)
    (hvisit : ∀ state visited peer rest, invariant state visited (some peer :: rest) →
      invariant (visit state peer).1 (visited ++ [some (visit state peer).2]) rest)
    {state : β} {slots : List (Option Peer)} (h : invariant state [] slots) :
    invariant (sweep visit state slots).1 (sweep visit state slots).2 [] := by
  -- A sweep that has begun goes on with the slots that it has not visited.
  have hrest (rest : List (Option Peer)) : ∀ state visited, invariant state visited rest →
      invariant (sweep visit state rest).1 (visited ++ (sweep visit state rest).2) [] := by
    induction rest with
    | nil =>
      intro state visited hsofar
      rwa [sweep, List.append_nil]
    | cons slot rest ih =>
      intro state visited hsofar
      cases slot with
      | none =>
        have hlater := ih _ _ (hvacant _ _ _ hsofar)
        rwa [List.append_assoc] at hlater
      | some peer =>
        have hlater := ih _ _ (hvisit _ _ _ _ hsofar)
        rwa [List.append_assoc] at hlater
  exact hrest slots state [] h

/-- What a visit that may set a connection aside makes of the budget and of the connection. What
`holds` of the budget and of all slots is kept, and the connection `suits` the visit if it is
left among the others. -/
inductive Visits (holds : Budget → List (Option Peer) → Prop) (suits : Peer → Prop)
    (budget : Budget) (peer : Peer) : Budget × Peer → Prop where
  | leaves (hsuits : peer.state = .connected → suits peer) :
      Visits holds suits budget peer (budget, peer)
  | sets {left : Budget} {next : Peer} (hleft : left.peers = budget.peers - 1)
      (hadjusted : left.adjusted = true) (hsuits : suits next)
      (hholds : ∀ visited rest, holds budget (visited ++ some peer :: rest) →
        0 < budget.peers ∧ holds left (visited ++ some next :: rest)) :
      Visits holds suits budget peer (left, next)

/-- How far a sweep has come that sets connections aside. -/
structure Sweeping (holds : Budget → List (Option Peer) → Prop) (suits : Peer → Prop)
    (bound : Nat) (budget : Budget) (visited rest : List (Option Peer)) : Prop where
  holds : holds budget (visited ++ rest)
  suits : ∀ peer ∈ connected visited, suits peer
  le : budget.peers ≤ bound
  lt_of_adjusted : budget.adjusted = true → budget.peers < bound

section

variable {holds : Budget → List (Option Peer) → Prop} {suits : Peer → Prop} {bound : Nat}
  {budget left : Budget} {visited rest : List (Option Peer)}

theorem Sweeping.start (h : holds { budget with adjusted := false } slots) :
    Sweeping holds suits budget.peers { budget with adjusted := false } [] slots where
  holds := h
  suits peer hpeer := by cases hpeer
  le := Nat.le_refl _
  lt_of_adjusted hadjusted := by cases hadjusted

theorem Sweeping.vacant (h : Sweeping holds suits bound budget visited (none :: rest)) :
    Sweeping holds suits bound budget (visited ++ [none]) rest := by
  obtain ⟨hholds, hsuits, hle, hlt⟩ := h
  refine ⟨by rwa [List.append_assoc], ?_, hle, hlt⟩
  rwa [connected_append, connected_vacant, connected_nil, List.append_nil]

theorem Sweeping.visit (h : Sweeping holds suits bound budget visited (some peer :: rest))
    (hvisits : Visits holds suits budget peer (left, next)) :
    Sweeping holds suits bound left (visited ++ [some next]) rest := by
  obtain ⟨hholds, hsuits, hle, hlt⟩ := h
  have hall (hnext : next.state = .connected → suits next) :
      ∀ other ∈ connected (visited ++ [some next]), suits other := by
    intro other hother
    rw [connected_append, List.mem_append] at hother
    rcases hother with hother | hother
    · exact hsuits other hother
    · obtain ⟨hmem, hstate⟩ := mem_connected.mp hother
      cases List.mem_singleton.mp hmem
      exact hnext hstate
  cases hvisits with
  | leaves hpeer => exact ⟨by rwa [List.append_assoc], hall hpeer, hle, hlt⟩
  | sets hleft hadjusted hnext hkeeps =>
    obtain ⟨hpos, hholds⟩ := hkeeps visited rest hholds
    exact ⟨by rwa [List.append_assoc], hall fun _ ↦ hnext, by omega, fun _ ↦ by omega⟩

/-- A sweep keeps what its visits keep; afterwards all connections suit it, and if one was set
aside, fewer are left. -/
theorem sweep_sets {visit : Budget → Peer → Budget × Peer}
    (hvisit : ∀ budget peer, Visits holds suits budget peer (visit budget peer))
    (h : holds { budget with adjusted := false } slots) :
    Sweeping holds suits budget.peers
      (sweep visit { budget with adjusted := false } slots).1
      (sweep visit { budget with adjusted := false } slots).2 [] :=
  sweep_induction (fun _ _ _ hsofar ↦ hsofar.vacant)
    (fun budget _ peer _ hsofar ↦ hsofar.visit (hvisit budget peer)) (.start h)

end

end Allocator

end ReliableDatagram
