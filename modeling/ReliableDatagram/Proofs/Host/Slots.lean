import ReliableDatagram.Host.Basic
import ReliableDatagram.Proofs.Peer.Local
import Mathlib.Data.Option.Basic
import Mathlib.Data.List.Forall2

/-!
# The slots of a host

The list of vacant slots of a table is right: it names slots that are vacant, each once, and
so a new connection never gets the slot of another one. What the host does with all of its
slots at once, broadcasting and sharing the bandwidth, keeps every connection in its slot.
-/

namespace ReliableDatagram

namespace SlotTable

variable {table : SlotTable} {id : PeerId} {peer : Peer}

/-- The slots that are listed as vacant are so, and are listed once. -/
structure Sound (table : SlotTable) : Prop where
  nodup : table.vacant.Nodup
  capacity : table.capacity ≤ 65536
  small : ∀ index ∈ table.vacant, index < table.capacity
  vacant : ∀ index ∈ table.vacant, table.get? (UInt16.ofNat index) = none

theorem lt_capacity_of_get? (h : table.get? id = some peer) : id.index < table.capacity := by
  by_contra hlarge
  have hnone : table.slots[id.index]? = none := Array.getElem?_eq_none (Nat.le_of_not_lt hlarge)
  rw [get?, hnone] at h
  cases h

theorem get?_set {next : Peer} (h : table.get? id = some peer) (other : PeerId) :
    (table.set id next).get? other = if other = id then some next else table.get? other := by
  split
  · rename_i heq
    rw [heq]
    exact get?_set_self next (lt_capacity_of_get? h)
  · rename_i hne
    exact get?_set_of_ne table next hne

theorem get?_release (table : SlotTable) (id other : PeerId) :
    (table.release id).get? other = if other = id then none else table.get? other := by
  split
  · rename_i heq
    rw [heq]
    exact get?_release_self table id
  · rename_i hne
    exact get?_release_of_ne table hne

/-! ## The vacant slots -/

theorem sound_empty (capacity : Nat) (settings : Settings) : (empty capacity settings).Sound where
  nodup := List.nodup_range
  capacity := by
    have hcapacity : min capacity unassignedPeer.toNat ≤ 65535 := Nat.min_le_right _ _
    rw [SlotTable.capacity, empty, Array.size_replicate]
    omega
  small index hindex := by
    rw [SlotTable.capacity, empty, Array.size_replicate]
    exact List.mem_range.mp hindex
  vacant index _ := by
    simp only [empty, get?, Array.getElem?_replicate]
    split <;> rfl

theorem Sound.set (h : table.Sound) {next : Peer} (hpeer : table.get? id = some peer) :
    (table.set id next).Sound where
  nodup := h.nodup
  capacity := by
    rw [capacity_set]
    exact h.capacity
  small := by
    rw [capacity_set]
    exact h.small
  vacant index hindex := by
    have hvacant := h.vacant index hindex
    rw [get?_set hpeer]
    split
    · rename_i heq
      rw [heq, hpeer] at hvacant
      cases hvacant
    · exact hvacant

theorem mem_insertAscending {index other : Nat} {vacant : List Nat} :
    other ∈ insertAscending index vacant ↔ other = index ∨ other ∈ vacant := by
  induction vacant with
  | nil => simp [insertAscending]
  | cons next rest ih =>
    unfold insertAscending
    split
    · simp
    · rw [List.mem_cons, ih, List.mem_cons]
      exact or_left_comm

theorem nodup_insertAscending {index : Nat} {vacant : List Nat} (h : vacant.Nodup)
    (hnew : index ∉ vacant) : (insertAscending index vacant).Nodup := by
  induction vacant with
  | nil => simp [insertAscending]
  | cons next rest ih =>
    unfold insertAscending
    split
    · exact List.nodup_cons.mpr ⟨hnew, h⟩
    · rw [List.mem_cons, not_or] at hnew
      rw [List.nodup_cons] at h ⊢
      refine ⟨?_, ih h.2 hnew.2⟩
      rw [mem_insertAscending, not_or]
      exact ⟨Ne.symm hnew.1, h.1⟩

theorem Sound.release (h : table.Sound) (id : PeerId) : (table.release id).Sound := by
  cases hpeer : table.get? id with
  | none =>
    rw [SlotTable.release, hpeer]
    exact h
  | some peer =>
    have hvacant : (table.release id).vacant = insertAscending id.index table.vacant := by
      rw [SlotTable.release, hpeer]
    have hnew : id.index ∉ table.vacant := by
      intro hmem
      have hnone := h.vacant _ hmem
      rw [PeerId.index, UInt16.ofNat_toNat, hpeer] at hnone
      cases hnone
    have hcapacity : (table.release id).capacity = table.capacity := by
      rw [SlotTable.release, hpeer]
      exact Array.size_setIfInBounds
    refine ⟨?_, hcapacity ▸ h.capacity, ?_, ?_⟩
    · rw [hvacant]
      exact nodup_insertAscending h.nodup hnew
    · intro index hindex
      rw [hvacant, mem_insertAscending] at hindex
      rw [hcapacity]
      rcases hindex with rfl | hindex
      · exact lt_capacity_of_get? hpeer
      · exact h.small index hindex
    · intro index hindex
      rw [hvacant, mem_insertAscending] at hindex
      rw [get?_release]
      split
      · rfl
      · rename_i hne
        rcases hindex with rfl | hindex
        · exact absurd UInt16.ofNat_toNat hne
        · exact h.vacant index hindex

/-- A new connection gets a slot that was vacant, and all others stay where they are. -/
theorem Sound.allocate {fresh : Peer} {after : SlotTable} (h : table.Sound)
    (hallocate : table.allocate = some (id, fresh, after)) :
    after.Sound ∧ table.get? id = none ∧ after.get? id = some fresh ∧
      ∀ other ≠ id, after.get? other = table.get? other := by
  unfold SlotTable.allocate at hallocate
  split at hallocate
  · cases hallocate
  · rename_i index rest hvacant
    cases hallocate
    have hnodup := h.nodup
    rw [hvacant, List.nodup_cons] at hnodup
    have hmem {other : Nat} (hother : other ∈ rest) : other ∈ table.vacant := by
      rw [hvacant]
      exact List.mem_cons_of_mem _ hother
    have hindex : index ∈ table.vacant := by
      rw [hvacant]
      exact List.mem_cons_self
    have htoNat {other : Nat} (hother : other ∈ table.vacant) :
        (UInt16.ofNat other).toNat = other := by
      rw [UInt16.toNat_ofNat', Nat.mod_eq_of_lt]
      exact Nat.lt_of_lt_of_le (h.small other hother) h.capacity
    refine ⟨⟨hnodup.2, ?_, ?_, ?_⟩, h.vacant _ hindex, ?_, ?_⟩
    · rw [capacity_set]
      exact h.capacity
    · intro other hother
      rw [capacity_set]
      exact h.small other (hmem hother)
    · intro other hother
      have hne : UInt16.ofNat other ≠ UInt16.ofNat index := by
        intro heq
        have hsame := congrArg UInt16.toNat heq
        rw [htoNat (hmem hother), htoNat hindex] at hsame
        rw [hsame] at hother
        exact hnodup.1 hother
      rw [get?_set_of_ne _ _ hne]
      exact h.vacant other (hmem hother)
    · apply get?_set_self
      rw [PeerId.index, htoNat hindex]
      exact h.small index hindex
    · intro other hne
      rw [get?_set_of_ne _ _ hne]
      rfl

/-- A new connection works with the settings of the table. -/
theorem settings_of_allocate {fresh : Peer} {after : SlotTable}
    (h : table.allocate = some (id, fresh, after)) :
    fresh.settings = table.settings ∧ after.settings = table.settings := by
  unfold allocate at h
  split at h
  · cases h
  · cases h
    exact ⟨rfl, rfl⟩

theorem settings_release (table : SlotTable) (id : PeerId) :
    (table.release id).settings = table.settings := by
  unfold release
  split <;> rfl

/-! ## All slots at once -/

/-- Every connection has become in its slot what it can become, and the other slots are vacant as
before. -/
def Slotwise (becomes : Peer → Peer → Prop) (slots after : List (Option Peer)) : Prop :=
  List.Forall₂ (Option.Rel becomes) slots after

section

variable {becomes : Peer → Peer → Prop} {slots middle after : List (Option Peer)}

theorem Slotwise.imp {weaker : Peer → Peer → Prop} (h : Slotwise becomes slots after)
    (himp : ∀ peer next, becomes peer next → weaker peer next) : Slotwise weaker slots after := by
  refine List.Forall₂.imp (fun slot next hslot ↦ ?_) h
  cases hslot with
  | none => exact .none
  | some hbecomes => exact .some (himp _ _ hbecomes)

theorem Slotwise.join (h : Slotwise becomes slots after) (index : Nat) :
    Option.Rel becomes slots[index]?.join after[index]?.join := by
  induction h generalizing index with
  | nil => exact .none
  | cons hhead _ ih =>
    cases index with
    | zero => exact hhead
    | succ index => exact ih index

/-- A slot of a table all of whose slots have changed. -/
theorem Slotwise.get? (h : Slotwise becomes table.slots.toList slots) (id : PeerId) :
    Option.Rel becomes (table.get? id)
      (SlotTable.get? { table with slots := slots.toArray } id) := by
  simpa [SlotTable.get?] using h.join id.index

theorem Slotwise.isNone_get? (h : Slotwise becomes table.slots.toList slots) (id : PeerId) :
    (SlotTable.get? { table with slots := slots.toArray } id).isNone =
      (table.get? id).isNone := by
  have hslot := h.get? id
  generalize table.get? id = slot at hslot ⊢
  generalize SlotTable.get? _ id = next at hslot ⊢
  cases hslot <;> rfl

theorem Slotwise.capacity (h : Slotwise becomes table.slots.toList slots) :
    SlotTable.capacity { table with slots := slots.toArray } = table.capacity := by
  simpa [SlotTable.capacity] using h.length_eq.symm

theorem Sound.slotwise (h : table.Sound) (hslots : Slotwise becomes table.slots.toList slots) :
    SlotTable.Sound { table with slots := slots.toArray } where
  nodup := h.nodup
  capacity := hslots.capacity ▸ h.capacity
  small := hslots.capacity ▸ h.small
  vacant index hindex := by
    rw [← Option.isNone_iff_eq_none, hslots.isNone_get?, Option.isNone_iff_eq_none]
    exact h.vacant index hindex

theorem slotwise_map {change : Peer → Peer} (h : ∀ peer, becomes peer (change peer))
    (slots : List (Option Peer)) : Slotwise becomes slots (slots.map (·.map change)) := by
  induction slots with
  | nil => exact .nil
  | cons slot rest ih =>
    refine .cons ?_ ih
    cases slot with
    | none => exact .none
    | some peer => exact .some (h peer)

theorem Slotwise.refl (h : ∀ peer, becomes peer peer) (slots : List (Option Peer)) :
    Slotwise becomes slots slots := by
  simpa using slotwise_map h slots

/-- What becomes of the connections in one step and in the next. -/
theorem Slotwise.comp {later both : Peer → Peer → Prop} (h : Slotwise becomes slots middle)
    (hnext : Slotwise later middle after)
    (hboth : ∀ peer next last, becomes peer next → later next last → both peer last) :
    Slotwise both slots after := by
  induction h generalizing after with
  | nil =>
    cases hnext
    exact .nil
  | cons hhead _ ih =>
    cases hnext with
    | cons hother hrest =>
      refine .cons ?_ (ih hrest)
      cases hhead with
      | none =>
        cases hother
        exact .none
      | some hfirst =>
        cases hother with
        | some hsecond => exact .some (hboth _ _ _ hfirst hsecond)

theorem slotwise_refl (slots : List (Option Peer)) : Slotwise Peer.LocalRun slots slots :=
  .refl (fun _ ↦ .refl) slots

theorem Slotwise.trans (h : Slotwise Peer.LocalRun slots middle)
    (hnext : Slotwise Peer.LocalRun middle after) : Slotwise Peer.LocalRun slots after :=
  h.comp hnext fun _ _ _ hfirst hsecond ↦ hfirst.trans hsecond

end

/-- Every connection has gone on in its slot, known as before, and the other slots are vacant as
before. -/
def Evolves (slots after : List (Option Peer)) : Prop :=
  List.Forall₂ (Option.Rel Peer.Stays) slots after

theorem Slotwise.evolves {slots after : List (Option Peer)}
    (h : Slotwise Peer.LocalRun slots after) : Evolves slots after :=
  h.imp fun _ _ hrun ↦ hrun.stays

/-- A table whose slots have evolved. -/
theorem Evolves.get? {slots : List (Option Peer)} (h : Evolves table.slots.toList slots)
    (id : PeerId) : Option.Rel Peer.Stays (table.get? id)
      (SlotTable.get? { table with slots := slots.toArray } id) := Slotwise.get? h id

theorem Sound.evolves {slots : List (Option Peer)} (h : table.Sound)
    (hslots : Evolves table.slots.toList slots) :
    SlotTable.Sound { table with slots := slots.toArray } := h.slotwise hslots

end SlotTable

namespace Allocator

open SlotTable

theorem sweep_slotwise {β : Type} {visit : β → Peer → β × Peer} {becomes : Peer → Peer → Prop}
    (hvisit : ∀ state (peer : Peer), becomes peer (visit state peer).2) (state : β)
    (slots : List (Option Peer)) : Slotwise becomes slots (sweep visit state slots).2 := by
  induction slots generalizing state with
  | nil => exact .nil
  | cons slot rest ih =>
    cases slot with
    | none => exact .cons .none (ih state)
    | some peer => exact .cons (.some (hvisit state peer)) (ih _)

theorem updateConnected_slotwise {change : Peer → Peer}
    (hchange : ∀ peer : Peer, peer.LocalRun (change peer)) (slots : List (Option Peer)) :
    Slotwise Peer.LocalRun slots (updateConnected change slots) := by
  apply slotwise_map
  intro peer
  split
  · exact hchange peer
  · exact .refl

theorem capPeers_slotwise (period : Period) (rounds throttle : Nat) (budget : Budget)
    (slots : List (Option Peer)) :
    Slotwise Peer.LocalRun slots (capPeers period rounds throttle budget slots).2.2 := by
  induction rounds generalizing throttle budget slots with
  | zero => exact slotwise_refl slots
  | succ rounds ih =>
    unfold capPeers
    split
    · exact slotwise_refl slots
    · refine (sweep_slotwise ?_ _ slots).trans (ih ..)
      intro state peer
      unfold capPeer
      split
      · exact .refl
      · dsimp only
        split
        · exact .refl
        · exact .tail (.single (.setThrottleLimit _)) (.markEpochs ..)

theorem settlePeers_slotwise (now : Stamp) (rounds share : Nat) (budget : Budget)
    (slots : List (Option Peer)) :
    Slotwise Peer.LocalRun slots (settlePeers now rounds share budget slots).2 := by
  induction rounds generalizing share budget slots with
  | zero => exact slotwise_refl slots
  | succ rounds ih =>
    unfold settlePeers
    split
    · exact slotwise_refl slots
    · refine (sweep_slotwise ?_ _ slots).trans (ih ..)
      intro state peer
      unfold settlePeer
      dsimp only
      split
      · exact .refl
      · exact .single (.markEpochs ..)

theorem shareOutgoing_slotwise (period : Period) (outgoing : UInt32)
    (slots : List (Option Peer)) :
    Slotwise Peer.LocalRun slots (shareOutgoing period outgoing slots) := by
  unfold shareOutgoing
  dsimp only
  generalize hcapped : capPeers _ _ _ _ slots = capped
  have hcaps : Slotwise Peer.LocalRun slots capped.2.2 := by
    rw [← hcapped]
    exact capPeers_slotwise ..
  split
  · exact hcaps
  · refine hcaps.trans (updateConnected_slotwise ?_ _)
    intro peer
    split
    · exact .refl
    · exact .single (.setThrottleLimit _)

theorem shareIncoming_slotwise (context : Context) (slots : List (Option Peer)) :
    Slotwise Peer.LocalRun slots (shareIncoming context slots) := by
  unfold shareIncoming
  dsimp only
  split
  · exact updateConnected_slotwise (fun _ ↦ .single (.announceBandwidth ..)) _
  · exact (settlePeers_slotwise ..).trans
      (updateConnected_slotwise (fun _ ↦ .single (.announceBandwidth ..)) _)

/-- Sharing the bandwidth keeps every connection in its slot. -/
theorem run_slotwise (allocator : Allocator) (context : Context) (scale : UInt32)
    (table : SlotTable) : ∃ slots, Slotwise Peer.LocalRun table.slots.toList slots ∧
      (allocator.run context scale table).2 = { table with slots := slots.toArray } := by
  have hreset (slots : List (Option Peer)) :
      Slotwise Peer.LocalRun slots (slots.map (·.map Peer.resetTotals)) :=
    slotwise_map (fun _ ↦ .single .resetTotals) slots
  unfold run
  split
  · exact ⟨table.slots.toList, slotwise_refl _, rfl⟩
  · dsimp only
    generalize hshared : shareOutgoing _ _ table.slots.toList = shared
    have houtgoing : Slotwise Peer.LocalRun table.slots.toList shared := by
      rw [← hshared]
      exact shareOutgoing_slotwise ..
    refine ⟨_, ?_, rfl⟩
    split
    · exact (houtgoing.trans (shareIncoming_slotwise context shared)).trans (hreset _)
    · exact houtgoing.trans (hreset _)

end Allocator

end ReliableDatagram
