import ReliableDatagram.Proofs.Channel.Delivery
import Mathlib.Data.List.Induction

/-!
# Runs of a channel

A channel can be used in any way: arrivals come with arbitrary numbers and contents, fragments
are put into whatever run is found, and packets are delivered in between. A run starts with a
fresh channel and keeps a list of what the deliveries took. All that a single action can do to a
channel is said once, in `Acts`; what holds of all runs follows from it.
-/

namespace ReliableDatagram

namespace Arrival

/-- Taking drops entries that are complete and stale. What it takes is complete and the next in
order, and if it takes nothing, the entry it stops at has to wait. -/
theorem takeNext_eq {delivered : UInt32} {buffer rest : List Arrival} {taken : Option Arrival}
    (h : takeNext delivered buffer = (taken, rest)) : ∃ stale,
      buffer = stale ++ (taken.toList ++ rest) ∧
      (∀ entry ∈ stale, entry.remaining = 0 ∧ entry.sequence ≤ delivered) ∧
      (∀ entry ∈ taken, entry.remaining = 0 ∧ entry.sequence.toNat = delivered.toNat + 1) ∧
      (taken = none → ∀ entry ∈ rest.head?,
        0 < entry.remaining ∨ delivered.toNat + 1 < entry.sequence.toNat) := by
  induction buffer with
  | nil =>
    cases h
    exact ⟨[], rfl, by simp, by simp, by simp⟩
  | cons head older ih =>
    rw [takeNext] at h
    split at h
    · rename_i hwaits
      cases h
      exact ⟨[], rfl, by simp, by simp, by simpa using hwaits⟩
    · rename_i hready
      rw [not_or, UInt32.not_lt, Nat.not_lt] at hready
      have hcomplete : head.remaining = 0 := UInt32.le_antisymm hready.1 UInt32.zero_le
      split at h
      · rename_i hahead
        cases h
        rw [UInt32.lt_iff_toNat_lt] at hahead
        refine ⟨[], rfl, by simp, ?_, by simp⟩
        rintro entry ⟨rfl⟩
        exact ⟨hcomplete, by omega⟩
      · rename_i hstale
        obtain ⟨stale, rfl, hpast, htaken, hrest⟩ := ih h
        refine ⟨head :: stale, rfl, ?_, htaken, hrest⟩
        intro entry hentry
        rcases List.mem_cons.mp hentry with rfl | hentry
        · exact ⟨hcomplete, UInt32.not_lt.mp hstale⟩
        · exact hpast entry hentry

end Arrival

namespace Channel

/-! ## Deliveries -/

/-- What a delivery takes out of the buffers. -/
inductive Delivered where
  | reliable (arrival : Arrival)
  /-- An unreliable arrival that has a number. -/
  | sequenced (arrival : Arrival)
  /-- An unreliable arrival that has none. -/
  | unsequenced (arrival : Arrival)
deriving DecidableEq, Repr

def Delivered.packet : Delivered → Packet
  | reliable arrival | sequenced arrival | unsequenced arrival => arrival.toPacket

def next? (channel : Channel) : Option Delivered :=
  let next := (Arrival.takeNext channel.incomingReliable channel.reliable).1.map .reliable
  match channel.unreliable with
  | [] => next
  | head :: _ =>
    if channel.holdsBack head then next
    else if 0 < head.unreliableSequence then some (.sequenced head)
    else some (.unsequenced head)

variable {channel : Channel}

/-- The foremost unreliable arrival, if there is one, has to wait. -/
def Withholds (channel : Channel) : Prop :=
  ∀ head ∈ channel.unreliable.head?, channel.holdsBack head = true

theorem exists_of_not_withholds (h : ¬ channel.Withholds) : ∃ head rest,
    channel.unreliable = head :: rest ∧ ¬ channel.holdsBack head = true := by
  cases hbuffer : channel.unreliable with
  | nil => exact absurd (fun head hhead ↦ by rw [hbuffer] at hhead; cases hhead) h
  | cons head rest =>
    refine ⟨head, rest, rfl, fun hheld ↦ h fun other hother ↦ ?_⟩
    rw [hbuffer] at hother
    cases hother
    exact hheld

theorem next?_of_withholds (h : channel.Withholds) : channel.next? =
    (Arrival.takeNext channel.incomingReliable channel.reliable).1.map Delivered.reliable := by
  unfold next?
  dsimp only
  split
  · rfl
  · rename_i hbuffer
    rw [if_pos (h _ (by rw [hbuffer]; rfl))]

theorem receive_of_withholds (h : channel.Withholds) :
    channel.receive = channel.receiveReliable := by
  unfold receive
  split
  · rfl
  · rename_i hbuffer
    rw [if_pos (h _ (by rw [hbuffer]; rfl))]

theorem next?_of_free {head : Arrival} {rest : List Arrival}
    (hbuffer : channel.unreliable = head :: rest) (hfree : ¬ channel.holdsBack head = true) :
    channel.next? = some
      (if 0 < head.unreliableSequence then .sequenced head else .unsequenced head) := by
  unfold next?
  dsimp only
  rw [hbuffer]
  dsimp only
  rw [if_neg hfree, apply_ite some]

theorem receive_of_free {head : Arrival} {rest : List Arrival}
    (hbuffer : channel.unreliable = head :: rest) (hfree : ¬ channel.holdsBack head = true) :
    channel.receive = (some head.toPacket, { channel with
      unreliable := rest
      incomingUnreliable :=
        if 0 < head.unreliableSequence then head.unreliableSequence
        else channel.incomingUnreliable }) := by
  unfold receive
  rw [hbuffer]
  dsimp only
  rw [if_neg hfree]

/-- A delivery returns the packet of what it takes. -/
theorem receive_fst (channel : Channel) :
    channel.receive.1 = channel.next?.map Delivered.packet := by
  by_cases hwithholds : channel.Withholds
  · rw [next?_of_withholds hwithholds, receive_of_withholds hwithholds]
    unfold receiveReliable
    split <;> rename_i heq <;> rw [heq] <;> rfl
  · obtain ⟨head, rest, hbuffer, hfree⟩ := exists_of_not_withholds hwithholds
    rw [next?_of_free hbuffer hfree, receive_of_free hbuffer hfree]
    dsimp only
    split <;> rfl

/-! ## Actions -/

inductive Action where
  | reliable (arrival : Arrival)
  | unreliable (arrival : Arrival)
  | unsequenced (arrival : Arrival)
  /-- A fragment is put into the run with a start number, if there is one. -/
  | fragment (start number : UInt32) (offset : Nat) (payload : Bytes)
  | receive
deriving DecidableEq, Repr

def Action.unsequenced? : Action → Option Arrival
  | unsequenced arrival => some arrival
  | _ => none

def putFragment (channel : Channel) (start number : UInt32) (offset : Nat) (payload : Bytes) :
    Channel :=
  match channel.findRun start with
  | .found reassembly => channel.setRun start (reassembly.insert number offset payload).2
  | _ => channel

/-- What is delivered by an action, and what the channel becomes. -/
def act (channel : Channel) : Action → Option Delivered × Channel
  | .reliable arrival => (none, (channel.queueReliable arrival).2)
  | .unreliable arrival => (none, (channel.queueUnreliable arrival).2)
  | .unsequenced arrival => (none, channel.queueUnsequenced arrival)
  | .fragment start number offset payload =>
    (none, channel.putFragment start number offset payload)
  | .receive => (channel.next?, channel.receive.2)

/-- All that is delivered by some actions on a fresh channel, and what the channel becomes. -/
def run (actions : List Action) : List Delivered × Channel :=
  actions.foldl
    (fun (taken, channel) action ↦
      (taken ++ (channel.act action).1.toList, (channel.act action).2)) ([], {})

theorem run_concat (actions : List Action) (action : Action) :
    run (actions ++ [action]) =
      ((run actions).1 ++ ((run actions).2.act action).1.toList,
        ((run actions).2.act action).2) := by
  rw [run, List.foldl_append]
  rfl

/-- What an action can deliver, and what it can make of a channel. -/
inductive Acts (channel : Channel) : Action → Option Delivered → Channel → Prop where
  /-- What comes is not kept. -/
  | refused {action : Action} (hsequenced : action.unsequenced? = none) :
      Acts channel action none channel
  | reliable {arrival : Arrival} {buffer : List Arrival}
      (hahead : channel.incomingReliable < arrival.sequence)
      (hbuffer : arrival.insertInto Arrival.sequence channel.reliable = some buffer) :
      Acts channel (.reliable arrival) none { channel with reliable := buffer }
  | unreliable {arrival : Arrival} {buffer : List Arrival}
      (hreliable : channel.incomingReliable ≤ arrival.sequence)
      (hunreliable : channel.incomingUnreliable < arrival.unreliableSequence)
      (hbuffer : arrival.insertInto Arrival.unreliableSequence channel.unreliable = some buffer) :
      Acts channel (.unreliable arrival) none { channel with unreliable := buffer }
  | unsequenced {arrival : Arrival} :
      Acts channel (.unsequenced arrival) none (channel.queueUnsequenced arrival)
  | fragment {start number : UInt32} {offset : Nat} {payload : Bytes} {entry : Arrival}
      {front rest : List Arrival} {reassembly : Reassembly}
      (hbuffer : channel.reliable = front ++ entry :: rest)
      (hcontent : entry.content = .fragments reassembly) :
      Acts channel (.fragment start number offset payload) none { channel with
        reliable := front ++
          { entry with content := .fragments (reassembly.insert number offset payload).2 } ::
            rest }
  | nothing {stale rest : List Arrival} (hwithholds : channel.Withholds)
      (hbuffer : channel.reliable = stale ++ rest) :
      Acts channel .receive none { channel with reliable := rest }
  | delivered {stale rest : List Arrival} {arrival : Arrival} (hwithholds : channel.Withholds)
      (hbuffer : channel.reliable = stale ++ arrival :: rest)
      (hnumber : arrival.sequence.toNat = channel.incomingReliable.toNat + 1)
      (hcomplete : arrival.remaining = 0) :
      Acts channel .receive (some (.reliable arrival)) { channel with
        reliable := rest
        incomingReliable := arrival.sequence + (arrival.span - 1) }
  | sequencedDelivered {arrival : Arrival} {rest : List Arrival}
      (hbuffer : channel.unreliable = arrival :: rest) (hnumber : 0 < arrival.unreliableSequence)
      (hready : arrival.sequence ≤ channel.incomingReliable) :
      Acts channel .receive (some (.sequenced arrival)) { channel with
        unreliable := rest
        incomingUnreliable := arrival.unreliableSequence }
  | unsequencedDelivered {arrival : Arrival} {rest : List Arrival}
      (hbuffer : channel.unreliable = arrival :: rest)
      (hnumber : arrival.unreliableSequence = 0) :
      Acts channel .receive (some (.unsequenced arrival)) { channel with unreliable := rest }

theorem receive_acts (channel : Channel) :
    Acts channel .receive channel.next? channel.receive.2 := by
  by_cases hwithholds : channel.Withholds
  · rw [next?_of_withholds hwithholds, receive_of_withholds hwithholds]
    unfold receiveReliable
    split <;> rename_i htake <;> rw [htake] <;>
      obtain ⟨stale, hbuffer, -, htaken, -⟩ := Arrival.takeNext_eq htake
    · exact .nothing hwithholds hbuffer
    · exact .delivered hwithholds hbuffer (htaken _ rfl).2 (htaken _ rfl).1
  · obtain ⟨head, rest, hbuffer, hfree⟩ := exists_of_not_withholds hwithholds
    rw [next?_of_free hbuffer hfree, receive_of_free hbuffer hfree]
    by_cases hnumber : 0 < head.unreliableSequence
    · have hready : ¬ channel.incomingReliable < head.sequence := by
        intro hwait
        apply hfree
        rw [holdsBack, decide_eq_true hnumber, decide_eq_true hwait, Bool.true_and]
      rw [if_pos hnumber, if_pos hnumber]
      exact .sequencedDelivered hbuffer hnumber (UInt32.not_lt.mp hready)
    · rw [if_neg hnumber, if_neg hnumber]
      exact .unsequencedDelivered hbuffer
        (UInt32.le_antisymm (UInt32.not_lt.mp hnumber) UInt32.zero_le)

/-- An action does nothing else. -/
theorem act_acts (channel : Channel) (action : Action) :
    Acts channel action (channel.act action).1 (channel.act action).2 := by
  cases action with
  | reliable arrival =>
    rw [act, queueReliable]
    dsimp only
    split
    · exact .refused rfl
    · rename_i hahead
      split
      · exact .refused rfl
      · rename_i hbuffer
        exact .reliable (UInt32.not_le.mp hahead) hbuffer
  | unreliable arrival =>
    rw [act, queueUnreliable]
    dsimp only
    split
    · exact .refused rfl
    · rename_i hahead
      rw [not_or, UInt32.not_lt, UInt32.not_le] at hahead
      split
      · exact .refused rfl
      · rename_i hbuffer
        exact .unreliable hahead.1 hahead.2 hbuffer
  | unsequenced arrival => exact .unsequenced
  | fragment start number offset payload =>
    rw [act, putFragment]
    dsimp only
    split
    · rename_i reassembly hfound
      obtain ⟨front, entry, rest, hbuffer, -, hcontent, hset⟩ := findRun_eq_found hfound
      have hafter := hset (reassembly.insert number offset payload).2
      rw [setRun] at hafter ⊢
      dsimp only at hafter
      rw [hafter]
      exact .fragment hbuffer hcontent
    · exact .refused rfl
  | receive => exact channel.receive_acts

/-! ## The reliable buffer -/

/-- The numbers in the reliable buffer ascend, and none of them is 0. -/
structure Ascends (channel : Channel) : Prop where
  ascending : Arrival.Ascending Arrival.sequence channel.reliable
  numbered : ∀ entry ∈ channel.reliable, entry.sequence ≠ 0

theorem Ascends.lt_of_mem {front rest : List Arrival} {entry other : Arrival}
    (h : channel.Ascends) (hbuffer : channel.reliable = front ++ entry :: rest)
    (hother : other ∈ rest) : entry.sequence < other.sequence := by
  have hascending := h.ascending
  have hnumbered := h.numbered
  rw [hbuffer] at hascending hnumbered
  have hbehind : Arrival.Ascending Arrival.sequence (entry :: rest) :=
    (List.pairwise_append.mp hascending).2.1
  exact hbehind.lt_of_mem_tail (hnumbered entry (List.mem_append_right _ List.mem_cons_self)) hother

theorem Ascends.of_suffix {after : Channel} (h : channel.Ascends)
    (hsuffix : after.reliable <:+ channel.reliable) : after.Ascends where
  ascending := h.ascending.sublist hsuffix.sublist
  numbered entry hentry := h.numbered entry (hsuffix.subset hentry)

theorem Ascends.acts {action : Action} {taken : Option Delivered} {after : Channel}
    (h : channel.Ascends) (hacts : Acts channel action taken after) : after.Ascends := by
  cases hacts with
  | refused => exact h
  | @reliable arrival buffer hahead hbuffer =>
    refine ⟨h.ascending.insertInto hbuffer, fun entry hentry ↦ ?_⟩
    rcases (Arrival.mem_of_insertInto hbuffer).mp hentry with rfl | hentry
    · exact (UInt32.ne_of_lt (UInt32.lt_of_le_of_lt UInt32.zero_le hahead)).symm
    · exact h.numbered entry hentry
  | unreliable => exact h.of_suffix (List.suffix_refl _)
  | unsequenced => exact h.of_suffix (List.suffix_refl _)
  | @fragment _ _ _ _ entry front rest _ hbuffer =>
    have hascending := h.ascending
    have hnumbered := h.numbered
    rw [hbuffer] at hascending hnumbered
    refine ⟨hascending.replace rfl, fun other hother ↦ ?_⟩
    rcases List.mem_append.mp hother with hother | hother
    · exact hnumbered other (List.mem_append_left _ hother)
    · rcases List.mem_cons.mp hother with rfl | hother
      · exact hnumbered entry (List.mem_append_right _ List.mem_cons_self)
      · exact hnumbered other (List.mem_append_right _ (List.mem_cons_of_mem _ hother))
  | nothing _ hbuffer => exact h.of_suffix ⟨_, hbuffer.symm⟩
  | @delivered stale rest arrival _ hbuffer =>
    exact h.of_suffix ⟨stale ++ [arrival], by rw [hbuffer]; simp⟩
  | sequencedDelivered => exact h.of_suffix (List.suffix_refl _)
  | unsequencedDelivered => exact h.of_suffix (List.suffix_refl _)

theorem run_ascends (actions : List Action) : (run actions).2.Ascends := by
  induction actions using List.reverseRecOn with
  | nil => exact ⟨List.Pairwise.nil, by simp [run]⟩
  | append_singleton front action ih =>
    rw [run_concat]
    exact ih.acts (act_acts _ action)

end Channel

end ReliableDatagram
