import ReliableDatagram.Proofs.Host.Sending
import ReliableDatagram.Proofs.Peer.Emission
import Mathlib.Algebra.Order.BigOperators.Group.List
import Mathlib.Algebra.Order.Group.Nat
import Mathlib.Data.List.ReduceOption

/-!
# Sending comes to an end

A host goes through its slots until none has sent anything, and nothing but the connections
bounds how often. What all of them together have to send at the moment that the clock was read at
never grows, and each datagram takes something away from it. So the passes come to an end by
themselves, and the number of them that sending allows for is never reached.
-/

namespace ReliableDatagram

/-! ## Sums over the slots -/

namespace SlotTable

variable {table : SlotTable} {id : PeerId} {peer : Peer} {count more : Peer → Nat}

/-- What the connections in the slots come to together, if each of them counts for so much. -/
def total (table : SlotTable) (count : Peer → Nat) : Nat :=
  (table.slots.toList.map (Option.elim · 0 count)).sum

theorem total_le_total (h : ∀ peer, count peer ≤ more peer) :
    table.total count ≤ table.total more := by
  apply List.sum_le_sum
  intro slot _
  cases slot with
  | none => exact Nat.le_refl 0
  | some peer => exact h peer

/-- A place of a list is given another value. -/
theorem sum_map_set {α : Type} (weight : α → Nat) {values : List α} {index : Nat} {old : α}
    (h : values[index]? = some old) (new : α) :
    ((values.set index new).map weight).sum + weight old =
      (values.map weight).sum + weight new := by
  induction values generalizing index with
  | nil => cases h
  | cons first rest ih =>
    cases index with
    | zero =>
      cases h
      simp only [List.set_cons_zero, List.map_cons, List.sum_cons]
      omega
    | succ index =>
      have hrest := ih h
      simp only [List.set_cons_succ, List.map_cons, List.sum_cons]
      omega

theorem toList_of_get? (h : table.get? id = some peer) :
    table.slots.toList[id.index]? = some (some peer) := by
  rw [Array.getElem?_toList]
  exact Option.join_eq_some_iff.mp h

theorem total_set (h : table.get? id = some peer) (next : Peer) :
    (table.set id next).total count + count peer = table.total count + count next := by
  rw [total, set, Array.toList_setIfInBounds]
  exact sum_map_set (Option.elim · 0 count) (toList_of_get? h) (some next)

theorem total_release (h : table.get? id = some peer) :
    (table.release id).total count + count peer = table.total count := by
  rw [total, release, h, Array.toList_setIfInBounds]
  exact sum_map_set (Option.elim · 0 count) (toList_of_get? h) none

end SlotTable

namespace LiveHost

variable {σ : Type} (env : Environment σ)

/-- The number of datagrams that a host allows for is counted slot by slot. -/
theorem totalDatagramBound_eq (host : Host) :
    totalDatagramBound host = host.table.total datagramBound := by
  unfold totalDatagramBound SlotTable.total
  induction host.table.slots.toList with
  | nil => rfl
  | cons slot rest ih =>
    rw [List.map_cons, List.sum_cons, ← ih]
    cases slot with
    | none => rw [List.reduceOption_cons_of_none, Option.elim, Nat.zero_add]
    | some peer => rw [List.reduceOption_cons_of_some, List.foldr_cons, Option.elim]

/-! ## What is left to send -/

def burden (live : LiveHost σ) (now : Stamp) : Nat := live.host.table.total (·.burden now)

theorem burden_le (live : LiveHost σ) (now : Stamp) :
    live.burden now ≤ totalDatagramBound live.host := by
  rw [totalDatagramBound_eq]
  exact SlotTable.total_le_total fun peer ↦ peer.burden_le now

theorem burden_transmit (live : LiveHost σ) (address : Address) (datagram : Bytes) (now : Stamp) :
    (live.transmit env address datagram).burden now = live.burden now := by
  unfold transmit
  split
  · rfl
  · split <;> rfl

/-- A slot that sends a datagram leaves less to send, and one that sends none leaves no more. -/
theorem sendFrom_burden (now : Stamp) (check : Bool) (id : PeerId) (live : LiveHost σ) :
    (live.sendFrom env now check id).2.burden now + (live.sendFrom env now check id).1.toNat ≤
      live.burden now := by
  have hset {peer : Peer} (next : Peer) (hpeer : live.host.peer? id = some peer) :
      (live.mapHost (·.setPeer id next)).burden now + peer.burden now =
        live.burden now + next.burden now := SlotTable.total_set hpeer next
  have hends := live.sendFrom_ends env now check id
  generalize live.sendFrom env now check id = result at hends ⊢
  cases hends with
  | silent => exact Nat.le_refl _
  | @kept _ next _ hpeer hcompose hgoes =>
    have hless := Peer.burden_le_of_compose hcompose hgoes
    have hsame := hset next hpeer
    dsimp only [Bool.toNat_false]
    omega
  | @sent _ next _ _ hpeer hcompose =>
    have hless := Peer.burden_lt_of_compose hcompose
    have hsame := hset next hpeer
    rw [burden_transmit]
    dsimp only [Bool.toNat_true]
    omega
  | @gaveUp peer _ hpeer =>
    have hfreed : (live.host.table.release id).total (·.burden now) + peer.burden now =
        live.burden now := SlotTable.total_release hpeer
    rw [burden, mapHost, Host.table_reportDeparture]
    dsimp only [Host.release, Bool.toNat_false]
    omega

/-- A pass in which there is a datagram leaves less to send. -/
theorem sendPass_burden (now : Stamp) (check sent : Bool) (indices : List Nat)
    (live : LiveHost σ) :
    (live.sendPass env now check sent indices).2.burden now +
        (live.sendPass env now check sent indices).1.toNat ≤ live.burden now + sent.toNat := by
  induction indices generalizing live sent with
  | nil => exact Nat.le_refl _
  | cons index rest ih =>
    have hfirst := live.sendFrom_burden env now check (UInt16.ofNat index)
    rw [sendPass]
    generalize live.sendFrom env now check (UInt16.ofNat index) = result at hfirst ⊢
    obtain ⟨more, middle⟩ := result
    have hrest := ih (sent || more) middle
    have heither : (sent || more).toNat ≤ sent.toNat + more.toNat := by
      cases sent <;> cases more <;> decide
    dsimp only at hfirst hrest ⊢
    omega

/-! ## Passes until there is nothing to send -/

/-- Going through all slots so many times, the last time without a datagram. -/
inductive Drains (now : Stamp) (check : Bool) : Nat → LiveHost σ → LiveHost σ → Prop where
  /-- No slot has a datagram. -/
  | done {live last : LiveHost σ} (hpass : live.sendPass env now check false
      (List.range live.host.table.capacity) = (false, last)) : Drains now check 1 live last
  /-- Some slot has a datagram, and all are gone through again. -/
  | more {passes : Nat} {live middle last : LiveHost σ} (hpass : live.sendPass env now check false
      (List.range live.host.table.capacity) = (true, middle))
      (h : Drains now check passes middle last) : Drains now check (passes + 1) live last

/-- Passes that are allowed for come to an end by themselves, if they are more than what is to be
sent. -/
theorem sendPasses_drains (now : Stamp) (check : Bool) {allowed : Nat} {live : LiveHost σ}
    (h : live.burden now < allowed) : ∃ passes, passes ≤ live.burden now + 1 ∧
      Drains env now check passes live (live.sendPasses env now check allowed) := by
  induction allowed generalizing live with
  | zero => exact absurd h (Nat.not_lt_zero _)
  | succ allowed ih =>
    have hpass := live.sendPass_burden env now check false (List.range live.host.table.capacity)
    unfold sendPasses
    cases hresult : live.sendPass env now check false (List.range live.host.table.capacity) with
    | mk sent middle =>
      rw [hresult] at hpass
      cases sent with
      | false => exact ⟨1, Nat.le_add_left 1 _, .done hresult⟩
      | true =>
        dsimp only [Bool.toNat_true, Bool.toNat_false] at hpass
        have hless : middle.burden now < allowed := by omega
        obtain ⟨passes, hpasses, hdrains⟩ := ih hless
        exact ⟨passes + 1, by omega, .more hresult hdrains⟩

/-- Composing at one moment again and again brings no more datagrams than there are commands in
the queues and in flight, and one, before it brings something else. And so, whatever the state of
a host, it goes through its slots, at one reading of the clock, only so many times until none has
anything to send. -/
theorem sending_ends :
    (∀ (peer : Peer) (now : Stamp) (check : Bool), ∃ count,
      count ≤ peer.acknowledgements.length + peer.reliable.length + peer.unreliable.length +
        peer.sent.length + 1 ∧ peer.Empties now check count) ∧
      ∀ {σ : Type} (env : Environment σ) (live : LiveHost σ) (check : Bool), ∃ passes,
        passes ≤ totalDatagramBound live.host + 1 ∧
          Drains env (live.now env).1 check passes (live.now env).2
            (live.sendOutgoing env check) := by
  refine ⟨fun peer now check ↦ ?_, fun {σ} env live check ↦ ?_⟩
  · obtain ⟨count, hcount, hempties⟩ := peer.exists_empties now check
    exact ⟨count, Nat.le_trans hcount (peer.burden_le now), hempties⟩
  · have hbound := (live.now env).2.burden_le (live.now env).1
    obtain ⟨passes, hpasses, hdrains⟩ := sendPasses_drains env (live.now env).1 check
      (Nat.lt_succ_of_le hbound)
    rw [now_host] at hbound
    exact ⟨passes, by omega, hdrains⟩

end LiveHost

end ReliableDatagram
