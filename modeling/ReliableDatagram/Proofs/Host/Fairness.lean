import ReliableDatagram.Proofs.Host.Searches
import Mathlib.Data.List.Rotate

/-!
# Fair turns

A search goes through the slots in turn and stops at the first that has something to report.
That slot comes last in the next search, and the slots that the search has passed over come
right before it. So a slot that has something to report keeps its place before every other slot
that has had its turn, until it has its own: no other slot has two turns before.
-/

namespace ReliableDatagram

namespace Peer

/-- A packet waits to be delivered on one of the channels. -/
def Deliverable (peer : Peer) : Prop := ∃ channel ∈ peer.channels, channel.receive.1.isSome = true

theorem isSome_receiveFrom (first : Nat) (channels : List Channel) :
    (receiveFrom first channels).1.isSome = true ↔
      ∃ channel ∈ channels, channel.receive.1.isSome = true := by
  induction channels generalizing first with
  | nil => simp [receiveFrom]
  | cons channel rest ih =>
    unfold receiveFrom
    cases hreceive : channel.receive with
    | mk found next =>
      cases found with
      | some packet => simp [hreceive]
      | none => simpa [hreceive] using ih (first + 1)

theorem isSome_receiveAny (peer : Peer) : peer.receiveAny.1.isSome = true ↔ peer.Deliverable :=
  isSome_receiveFrom 0 peer.channels

end Peer

namespace Host

variable {host after : Host} {id : PeerId} {event : Event}

/-- The connection in a slot is over and waits to be reported, or it stands and a packet waits to
be delivered. -/
def Ready (host : Host) (id : PeerId) : Prop :=
  ∃ peer, host.peer? id = some peer ∧
    (peer.state = .zombie ∨ peer.state = .connected ∧ peer.Deliverable)

/-- The slot that a search gives its turn. -/
def turn? (host : Host) : Option PeerId := host.search.1.bind Event.peer?

theorem Ready.congr {other : Host} (h : host.Ready id) (hslot : other.peer? id = host.peer? id) :
    other.Ready id := by
  obtain ⟨peer, hpeer, hready⟩ := h
  exact ⟨peer, hslot.trans hpeer, hready⟩

theorem Ready.index_lt (h : host.Ready id) : id.index < host.table.capacity := by
  obtain ⟨peer, hpeer, -⟩ := h
  exact SlotTable.lt_capacity_of_get? hpeer

/-! ## One search -/

/-- The slots that a search goes through, and what it leaves, when it stops at one of them. -/
structure Stops (host : Host) (indices : List Nat) (event : Event) (after : Host)
    (skipped : List Nat) (index : Nat) (rest : List Nat) : Prop where
  indices : indices = skipped ++ index :: rest
  turn : event.peer? = some (UInt16.ofNat index)
  skipped : ∀ other ∈ skipped, ¬ host.Ready (UInt16.ofNat other)
  place : after.place = (index + 1, host.table.capacity)

theorem stops_first {rest : List Nat} {index : Nat}
    (hturn : event.peer? = some (UInt16.ofNat index)) (hcursor : after.cursor = index + 1)
    (hcapacity : after.table.capacity = host.table.capacity) :
    Stops host (index :: rest) event after [] index rest where
  indices := rfl
  turn := hturn
  skipped _ hmem := by cases hmem
  place := by rw [place, hcursor, hcapacity]

/-- A search goes on behind a slot that has nothing to report, where the connection may have become
another one. -/
theorem Stops.cons {indices skipped rest : List Nat} {index first : Nat} {other : Host}
    (h : Stops other indices event after skipped index rest)
    (hnodup : (first :: indices).Nodup) (hsmall : ∀ slot ∈ first :: indices, slot < 65536)
    (hunready : ¬ host.Ready (UInt16.ofNat first))
    (hcapacity : other.table.capacity = host.table.capacity)
    (hothers : ∀ id, id ≠ UInt16.ofNat first → other.peer? id = host.peer? id) :
    Stops host (first :: indices) event after (first :: skipped) index rest where
  indices := by rw [h.indices, List.cons_append]
  turn := h.turn
  skipped slot hslot hready := by
    rcases List.mem_cons.mp hslot with rfl | hslot
    · exact hunready hready
    · have hmem : slot ∈ indices := h.indices ▸ List.mem_append_left _ hslot
      refine h.skipped slot hslot (hready.congr (hothers _ fun heq ↦ ?_))
      have hsame := congrArg UInt16.toNat heq
      rw [UInt16.toNat_ofNat_of_lt' (hsmall slot (List.mem_cons_of_mem _ hmem)),
        UInt16.toNat_ofNat_of_lt' (hsmall first List.mem_cons_self)] at hsame
      exact (List.nodup_cons.mp hnodup).1 (hsame ▸ hmem)
  place := by rw [h.place, hcapacity]

/-- A search that finds something has passed over slots that have nothing to report. -/
theorem stops_of_dispatchFrom {indices : List Nat} (hnodup : indices.Nodup)
    (hsmall : ∀ index ∈ indices, index < 65536)
    (h : host.dispatchFrom indices = (some event, after)) :
    ∃ skipped index rest, Stops host indices event after skipped index rest := by
  have hends := dispatchFrom_ends indices host
  rw [h] at hends
  clear h
  generalize hresult : (some event, after) = result at hends
  induction hends with
  | nothing => cases hresult
  | @buried index rest host =>
    cases hresult
    exact ⟨[], index, rest, stops_first rfl rfl (host.table.capacity_release _)⟩
  | @delivered index rest host _ next =>
    cases hresult
    exact ⟨[], index, rest, stops_first rfl rfl (host.table.capacity_set _ next)⟩
  | @drained index _ host peer next _ hpeer hstate hreceive _ ih =>
    obtain ⟨skipped, found, rest, hstops⟩ := ih (List.nodup_cons.mp hnodup).2
      (fun slot hslot ↦ hsmall slot (List.mem_cons_of_mem _ hslot)) hresult
    refine ⟨index :: skipped, found, rest, hstops.cons hnodup hsmall ?_
      (host.table.capacity_set _ next) fun _ hne ↦ peer?_setPeer_of_ne hpeer hne⟩
    rintro ⟨other, hother, hready⟩
    cases hpeer.symm.trans hother
    rw [hstate] at hready
    have hnone := peer.isSome_receiveAny.mpr (hready.resolve_left (by decide)).2
    rw [hreceive] at hnone
    cases hnone
  | @passed index _ host _ hidle _ ih =>
    obtain ⟨skipped, found, rest, hstops⟩ := ih (List.nodup_cons.mp hnodup).2
      (fun slot hslot ↦ hsmall slot (List.mem_cons_of_mem _ hslot)) hresult
    refine ⟨index :: skipped, found, rest, hstops.cons hnodup hsmall ?_ rfl fun _ _ ↦ rfl⟩
    rintro ⟨peer, hpeer, hready⟩
    exact hready.elim (hidle peer hpeer).1 fun hready ↦ (hidle peer hpeer).2 hready.1

/-- A search that finds nothing leaves the place of the next one. -/
theorem place_of_dispatchFrom_none {indices : List Nat}
    (h : host.dispatchFrom indices = (none, after)) : after.place = host.place := by
  have hends := dispatchFrom_ends indices host
  rw [h] at hends
  clear h
  generalize hresult : (none, after) = result at hends
  induction hends with
  | nothing =>
    cases hresult
    rfl
  | buried | delivered => cases hresult
  | drained _ _ _ _ ih => exact (ih hresult).trans (place_setPeer ..)
  | passed _ _ ih => exact ih hresult

/-- A search goes around the slots from the place where it begins. -/
theorem searchOrder_eq (host : Host) :
    host.searchOrder = (List.range host.table.capacity).rotate host.cursor := by
  apply List.ext_getElem
  · simp [searchOrder]
  · intro offset _ _
    simp [searchOrder, List.getElem_rotate, Nat.add_comm]

theorem searchOrder_congr (h : after.place = host.place) :
    after.searchOrder = host.searchOrder := by
  obtain ⟨hcursor, hcapacity⟩ := Prod.ext_iff.mp h
  rw [searchOrder_eq, searchOrder_eq, show after.cursor = host.cursor from hcursor,
    show after.table.capacity = host.table.capacity from hcapacity]

theorem nodup_searchOrder (host : Host) : host.searchOrder.Nodup := by
  rw [searchOrder_eq, List.nodup_rotate]
  exact List.nodup_range

theorem mem_searchOrder {index : Nat} :
    index ∈ host.searchOrder ↔ index < host.table.capacity := by
  rw [searchOrder_eq, List.mem_rotate, List.mem_range]

/-- The next search takes the slot where this one stops last, and right before it those that this
one has passed over. -/
theorem searchOrder_of_stops {skipped rest : List Nat} {index : Nat}
    (h : Stops host host.searchOrder event after skipped index rest) :
    after.searchOrder = rest ++ skipped ++ [index] := by
  have horder : (List.range host.table.capacity).rotate host.cursor =
      skipped ++ index :: rest := by
    rw [← searchOrder_eq]
    exact h.indices
  have hindex : index = (skipped.length + host.cursor) % host.table.capacity := by
    have hget : (skipped ++ index :: rest)[skipped.length]? = some index := by simp
    rw [← horder, List.getElem?_rotate] at hget
    · simpa using (List.getElem?_eq_some_iff.mp hget).2.symm
    · have hlength := congrArg List.length horder
      simp only [List.length_rotate, List.length_append, List.length_cons] at hlength ⊢
      omega
  obtain ⟨hcursor, hcapacity⟩ := Prod.ext_iff.mp h.place
  have hmod : (index + 1) % (List.range host.table.capacity).length =
      (host.cursor + (skipped ++ [index]).length) % (List.range host.table.capacity).length := by
    rw [List.length_range, List.length_append, List.length_singleton, hindex, Nat.mod_add_mod]
    congr 1
    omega
  calc
    after.searchOrder = (List.range host.table.capacity).rotate (index + 1) := by
      rw [searchOrder_eq, show after.cursor = index + 1 from hcursor,
        show after.table.capacity = host.table.capacity from hcapacity]
    _ = (List.range host.table.capacity).rotate (host.cursor + (skipped ++ [index]).length) := by
      rw [← List.rotate_mod, hmod, List.rotate_mod]
    _ = ((skipped ++ [index]) ++ rest).rotate (skipped ++ [index]).length := by
      rw [← List.rotate_rotate, horder, List.append_assoc, List.singleton_append]
    _ = rest ++ skipped ++ [index] := by
      rw [List.rotate_append_length_eq, List.append_assoc]

/-! ## Turns -/

section

variable {other : PeerId} (hsmall : host.table.capacity ≤ 65536)

include hsmall

theorem stops_of_search (h : host.search.1 = some event) :
    ∃ skipped index rest, Stops host host.searchOrder event host.search.2 skipped index rest := by
  apply stops_of_dispatchFrom host.nodup_searchOrder
  · exact fun index hindex ↦ Nat.lt_of_lt_of_le (mem_searchOrder.mp hindex) hsmall
  · exact Prod.ext h rfl

/-- The slot that has its turn is where the search stops. -/
theorem stops_of_turn (h : host.turn? = some other) : ∃ event skipped rest,
    Stops host host.searchOrder event host.search.2 skipped other.index rest := by
  obtain ⟨event, hevent, hother⟩ := Option.bind_eq_some_iff.mp h
  obtain ⟨skipped, index, rest, hstops⟩ := stops_of_search hsmall hevent
  have hindex : index < host.table.capacity := by
    rw [← mem_searchOrder, hstops.indices]
    exact List.mem_append_right _ List.mem_cons_self
  cases hstops.turn.symm.trans hother
  have hsame : PeerId.index (UInt16.ofNat index) = index :=
    UInt16.toNat_ofNat_of_lt' (Nat.lt_of_lt_of_le hindex hsmall)
  exact ⟨event, skipped, rest, hsame.symm ▸ hstops⟩

theorem place_of_no_turn (h : host.turn? = none) : host.search.2.place = host.place := by
  cases hevent : host.search.1 with
  | none => exact place_of_dispatchFrom_none (Prod.ext hevent rfl)
  | some event =>
    obtain ⟨skipped, index, rest, hstops⟩ := stops_of_search hsmall hevent
    rw [turn?, hevent, Option.bind_some, hstops.turn] at h
    cases h

theorem capacity_search : host.search.2.table.capacity = host.table.capacity := by
  cases hturn : host.turn? with
  | none => exact congrArg Prod.snd (place_of_no_turn hsmall hturn)
  | some other =>
    obtain ⟨event, skipped, rest, hstops⟩ := stops_of_turn hsmall hturn
    exact congrArg Prod.snd hstops.place

end

/-- One slot comes before another in the next search. -/
def Before (host : Host) (id other : PeerId) : Prop :=
  [id.index, other.index].Sublist host.searchOrder

theorem Before.congr {other : PeerId} (h : host.Before id other)
    (hplace : after.place = host.place) : after.Before id other := by
  rwa [Before, searchOrder_congr hplace]

/-- A search that passes over the first of two slots passes over none of what has nothing to
report, so it stops before both. -/
theorem Before.rest {other : PeerId} {skipped rest : List Nat} {index : Nat}
    (h : host.Before id other) (hready : host.Ready id)
    (hstops : Stops host host.searchOrder event after skipped index rest) (hne : id.index ≠ index) :
    [id.index, other.index].Sublist rest := by
  rw [Before, hstops.indices, List.append_cons] at h
  have hpassed : id.index ∉ skipped ++ [index] := by
    rw [List.mem_append, List.mem_singleton, not_or]
    refine ⟨fun hskipped ↦ hstops.skipped _ hskipped ?_, hne⟩
    rwa [PeerId.index, UInt16.ofNat_toNat]
  obtain ⟨left, right, heq, hleft, hright⟩ := List.sublist_append_iff.mp h
  cases left with
  | nil =>
    rw [heq]
    exact hright
  | cons first left =>
    cases (List.cons.inj heq).1
    exact absurd (hleft.subset List.mem_cons_self) hpassed

section

variable {other : PeerId} (hsmall : host.table.capacity ≤ 65536)

include hsmall

/-- A slot that has had its turn comes after all others. -/
theorem before_of_turn (hturn : host.turn? = some other) (hid : id.index < host.table.capacity)
    (hne : id ≠ other) : host.search.2.Before id other := by
  obtain ⟨event, skipped, rest, hstops⟩ := stops_of_turn hsmall hturn
  have hindex : id.index ≠ other.index := fun heq ↦ hne (UInt16.toNat_inj.mp heq)
  have hmem : id.index ∈ rest ++ skipped := by
    have hid := mem_searchOrder.mpr hid
    rw [hstops.indices] at hid
    simpa [hindex, or_comm] using hid
  rw [Before, searchOrder_of_stops hstops]
  exact (List.singleton_sublist.mpr hmem).append (.refl [other.index])

/-- A slot behind one that is ready does not have its turn. -/
theorem Before.turn_ne (h : host.Before id other) (hready : host.Ready id) :
    host.turn? ≠ some other := by
  intro hturn
  obtain ⟨event, skipped, rest, hstops⟩ := stops_of_turn hsmall hturn
  have hnodup := host.nodup_searchOrder
  have hne : id.index ≠ other.index := by simpa using hnodup.sublist h
  have hmem : other.index ∈ rest := (h.rest hready hstops hne).subset (by simp)
  rw [hstops.indices] at hnodup
  exact (List.nodup_cons.mp hnodup.of_append_right).1 hmem

/-- A slot that is ready and does not have its turn stays before the others. -/
theorem Before.search (h : host.Before id other) (hready : host.Ready id)
    (hwaits : host.turn? ≠ some id) : host.search.2.Before id other := by
  cases hturn : host.turn? with
  | none => exact h.congr (place_of_no_turn hsmall hturn)
  | some found =>
    obtain ⟨event, skipped, rest, hstops⟩ := stops_of_turn hsmall hturn
    have hne : id.index ≠ found.index := by
      intro heq
      rw [hturn, UInt16.toNat_inj.mp heq] at hwaits
      exact hwaits rfl
    rw [Before, searchOrder_of_stops hstops, List.append_assoc]
    exact (h.rest hready hstops hne).trans (List.sublist_append_left _ _)

end

/-- From one search to the next, and so over any number of them, a slot that is ready and waits
for its turn stays before the others. -/
theorem before_of_isChain {other : PeerId} {first second : Host} {between : List Host}
    (h : (first :: (between ++ [second])).IsChain Resumes)
    (hsmall : ∀ host ∈ between, host.table.capacity ≤ 65536)
    (hready : ∀ host ∈ between, host.Ready id) (hwaits : ∀ host ∈ between, host.turn? ≠ some id)
    (hbefore : first.search.2.Before id other) : second.Before id other := by
  induction between generalizing first with
  | nil =>
    have hresumes : first.Resumes second := List.isChain_pair.mp h
    exact hbefore.congr hresumes
  | cons host rest ih =>
    rw [List.cons_append, List.isChain_cons_cons] at h
    rw [List.forall_mem_cons] at hsmall hready hwaits
    exact ih h.2 hsmall.2 hready.2 hwaits.2
      ((hbefore.congr h.1).search hsmall.1 hready.1 hwaits.1)

end Host

open Host

/-! ## Runs -/

theorem Quest.capacity {start host : Host} {past : List Host} (h : Quest start past host)
    (hsmall : start.table.capacity ≤ 65536) :
    host.table.capacity = start.table.capacity ∧
      ∀ moment ∈ past, moment.table.capacity = start.table.capacity := by
  induction h with
  | start => exact ⟨rfl, fun _ hmem ↦ by cases hmem⟩
  | @keep past host after _ hplace ih =>
    have hcapacity : after.table.capacity = host.table.capacity := congrArg Prod.snd hplace
    exact ⟨hcapacity.trans ih.1, ih.2⟩
  | search _ _ ih =>
    refine ⟨(capacity_search (ih.1 ▸ hsmall)).trans ih.1, fun moment hmem ↦ ?_⟩
    rcases List.mem_append.mp hmem with hearlier | hlast
    · exact ih.2 moment hearlier
    · exact List.mem_singleton.mp hlast ▸ ih.1

/-- As long as a slot has something to report and waits for its turn, no other slot has two
turns, whatever arrives and whatever becomes of the other slots. -/
theorem Run.fair_turns {σ : Type} {env : Environment σ} {turns : List (Turn σ)}
    {live : LiveHost σ} (h : Run env turns live) {earlier between later : List Host}
    {first second : Host} {id other : PeerId}
    (hsearches : turns.flatMap (·.searches env) =
      earlier ++ (first :: (between ++ [second])) ++ later)
    (hready : ∀ host ∈ between ++ [second], host.Ready id)
    (hwaits : ∀ host ∈ between, host.turn? ≠ some id) (hne : id ≠ other)
    (hfirst : first.turn? = some other) : second.turn? ≠ some other := by
  obtain ⟨capacity, incoming, outgoing, settings, hquest⟩ := h.quest
  have hsmall := (SlotTable.sound_empty capacity settings).capacity
  have hcapacity {host : Host} (hhost : host ∈ first :: (between ++ [second])) :
      host.table.capacity = (SlotTable.empty capacity settings).capacity := by
    apply (hquest.capacity hsmall).2
    rw [hsearches, List.append_assoc]
    exact List.mem_append_right _ (List.mem_append_left _ hhost)
  have hchain : (first :: (between ++ [second])).IsChain Resumes := by
    have hall := hquest.isChain.1
    rw [hsearches] at hall
    exact hall.left_of_append.right_of_append
  obtain ⟨hbetween, hsecond⟩ := List.forall_mem_append.mp hready
  have hlast := hsecond second (List.mem_singleton_self second)
  have hcommon : second.table.capacity = first.table.capacity :=
    (hcapacity (by simp)).trans (hcapacity (by simp)).symm
  have hbehind : first.search.2.Before id other :=
    before_of_turn ((hcapacity (by simp)).trans_le hsmall) hfirst (hcommon ▸ hlast.index_lt) hne
  have hbefore : second.Before id other :=
    before_of_isChain hchain (fun host hhost ↦ (hcapacity (by simp [hhost])).trans_le hsmall)
      hbetween hwaits hbehind
  exact hbefore.turn_ne ((hcapacity (by simp)).trans_le hsmall) hlast

/-- Two connections come to their ends, and when that of the first is reported, another one
comes into its slot and to its end. -/
def crowd : List (Operation Script) :=
  let ends (id : PeerId) : Operation Script := .change id fun peer ↦ { peer with state := .zombie }
  [.connect ⟨"10.0.0.8", 8⟩ 1 1, .connect ⟨"10.0.0.9", 9⟩ 1 2, ends 0, ends 1, .service 0 1,
    .connect ⟨"10.0.0.8", 8⟩ 1 3, ends 0, .service 0 1]

/-- The search after the first slot has had its turn does not come back to it, although there is
something to report there again. -/
theorem Run.fair_turns_crowd : ∃ turns live first second, rehearse crowd = some (turns, live) ∧
    turns.flatMap (·.searches Script.environment) = [first, second] ∧ second.Ready 0 ∧
    second.Ready 1 ∧ first.turn? = some 0 ∧ second.turn? ≠ some 0 := by
  have hreplay : (rehearse crowd).any fun result ↦
      let searches := result.1.flatMap (·.searches Script.environment)
      searches.length = 2 && searches.head?.any (·.turn? = some 0) &&
        searches.getLast?.any fun second ↦
          (second.peer? 0).any (·.state = .zombie) && (second.peer? 1).any (·.state = .zombie) := by
    decide +kernel
  obtain ⟨⟨turns, live⟩, hlive, hsearches⟩ := (Option.any_eq_true _ _).mp hreplay
  have hready {host : Host} {id : PeerId}
      (hzombie : (host.peer? id).any (·.state = .zombie) = true) : host.Ready id := by
    obtain ⟨peer, hpeer, hstate⟩ := (Option.any_eq_true _ _).mp hzombie
    exact ⟨peer, hpeer, .inl (of_decide_eq_true hstate)⟩
  simp only [Bool.and_eq_true, decide_eq_true_eq] at hsearches
  obtain ⟨⟨hlength, hhead⟩, hlast⟩ := hsearches
  obtain ⟨first, second, hboth⟩ := List.length_eq_two.mp hlength
  rw [hboth] at hhead hlast
  have hfirst : first.turn? = some 0 := of_decide_eq_true hhead
  obtain ⟨hzero, hone⟩ := Bool.and_eq_true_iff.mp hlast
  have hparts : turns.flatMap (·.searches Script.environment) =
      [] ++ (first :: ([] ++ [second])) ++ [] := hboth
  refine ⟨turns, live, first, second, hlive, hboth, hready hzero, hready hone, hfirst, ?_⟩
  exact (run_of_rehearse hlive).fair_turns hparts (by simpa using hready hone)
    (fun _ hmem ↦ by cases hmem) (by decide) hfirst

end ReliableDatagram
