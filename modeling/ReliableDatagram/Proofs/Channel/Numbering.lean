import ReliableDatagram.Proofs.Channel.Operations

/-!
# The numbers of what is delivered

Whatever numbers the arrivals have, as long as none of them goes beyond the greatest word, the
deliveries of a run are in order. The reliable ones take up the numbers from 1 to the counter
without a gap and without a repetition. The unreliable ones have ascending numbers, and none
comes before the reliable packet that it names. Unsequenced packets wait for nothing and leave in
the order in which they came.
-/

namespace ReliableDatagram

namespace Arrival

/-- Behind an entry with a number, all entries have one. -/
theorem Ascending.filter_eq_nil {key : Arrival → UInt32} {head : Arrival} {rest : List Arrival}
    (h : Ascending key (head :: rest)) (hhead : key head ≠ 0) :
    (head :: rest).filter (key · == 0) = [] := by
  rw [List.filter_eq_nil_iff]
  intro entry hentry
  rw [beq_iff_eq]
  rcases List.mem_cons.mp hentry with rfl | hentry
  · exact hhead
  · intro hzero
    have hlt := h.lt_of_mem_tail hhead hentry
    rw [hzero] at hlt
    exact UInt32.not_lt.mpr UInt32.zero_le hlt

/-- The entries without a number all stand in front. -/
theorem Ascending.filter_dropWhile {key : Arrival → UInt32} {buffer : List Arrival}
    (h : Ascending key buffer) :
    (buffer.dropWhile (key · == 0)).filter (key · == 0) = [] := by
  have hrest : Ascending key (buffer.dropWhile (key · == 0)) :=
    List.Pairwise.sublist (List.dropWhile_sublist _) h
  cases hdrop : buffer.dropWhile (key · == 0) with
  | nil => rfl
  | cons head rest =>
    have hhead := List.head?_dropWhile_not (key · == 0) buffer
    rw [hdrop] at hrest hhead
    exact hrest.filter_eq_nil (by simpa using hhead)

theorem one_le_span (arrival : Arrival) : 1 ≤ arrival.span := by
  unfold span
  split
  · exact UInt32.le_refl 1
  · rw [UInt32.max_def]
    split
    · exact UInt32.le_refl 1
    · rename_i hlt
      exact UInt32.le_of_lt (UInt32.not_le.mp hlt)

/-- The last number that an arrival takes up, if it does not go beyond the greatest word. -/
theorem toNat_last (arrival : Arrival)
    (hspan : arrival.sequence.toNat + arrival.span.toNat ≤ 4294967296) :
    (arrival.sequence + (arrival.span - 1)).toNat + 1 =
      arrival.sequence.toNat + arrival.span.toNat := by
  have hone := arrival.one_le_span
  have hpred := UInt32.toNat_sub_of_le _ _ hone
  rw [UInt32.le_iff_toNat_le] at hone
  rw [UInt32.toNat_one] at hone hpred
  rw [UInt32.toNat_add, hpred, Nat.mod_eq_of_lt (by omega)]
  omega

end Arrival

namespace Channel

/-- The reliable numbers that a delivered packet takes up. -/
def Delivered.numbers : Delivered → List Nat
  | reliable arrival => List.range' arrival.sequence.toNat arrival.span.toNat
  | _ => []

def Delivered.unreliableNumber? : Delivered → Option UInt32
  | sequenced arrival => some arrival.unreliableSequence
  | _ => none

def Delivered.unsequenced? : Delivered → Option Arrival
  | unsequenced arrival => some arrival
  | _ => none

/-- The unsequenced packets that have not been delivered. -/
def waiting (channel : Channel) : List Arrival :=
  channel.unreliable.filter (·.unreliableSequence == 0)

/-- After some actions, what was delivered is in order, and what waits for delivery will be. -/
structure Ordered (past : List Action) (taken : List Delivered) (channel : Channel) : Prop where
  /-- The reliable numbers that were delivered are those up to the counter, each once. -/
  numbers : taken.flatMap Delivered.numbers = List.range' 1 channel.incomingReliable.toNat
  /-- The unreliable numbers that were delivered ascend. -/
  ascending : (taken.filterMap Delivered.unreliableNumber?).Pairwise (· < ·)
  /-- None of them is beyond the counter. -/
  counted : ∀ number ∈ taken.filterMap Delivered.unreliableNumber?,
    number ≤ channel.incomingUnreliable
  /-- All unreliable numbers that wait are. -/
  ahead : ∀ entry ∈ channel.unreliable, entry.unreliableSequence ≠ 0 →
    channel.incomingUnreliable < entry.unreliableSequence
  /-- They ascend as well, behind the unsequenced packets. -/
  sorted : Arrival.Ascending Arrival.unreliableSequence channel.unreliable
  /-- The unsequenced packets that came were delivered in this order, or wait in it. -/
  unsequenced : past.filterMap Action.unsequenced? =
    taken.filterMap Delivered.unsequenced? ++ channel.waiting

namespace Ordered

variable {past : List Action} {taken : List Delivered} {channel after : Channel}
  {action : Action} {next : Option Delivered}

theorem start : Ordered [] [] {} where
  numbers := rfl
  ascending := List.Pairwise.nil
  counted := by simp
  ahead := by simp
  sorted := List.Pairwise.nil
  unsequenced := rfl

/-- An unsequenced packet that waits stands in front. -/
theorem next?_eq_of_waiting (h : Ordered past taken channel) {arrival : Arrival}
    (harrival : arrival ∈ channel.waiting.head?) :
    channel.next? = some (.unsequenced arrival) := by
  have hsorted := h.sorted
  cases hbuffer : channel.unreliable with
  | nil =>
    rw [waiting, hbuffer] at harrival
    cases harrival
  | cons head rest =>
    rw [hbuffer] at hsorted
    have hhead : head.unreliableSequence = 0 := by
      by_contra hne
      rw [waiting, hbuffer, hsorted.filter_eq_nil hne] at harrival
      cases harrival
    have hfree : ¬ channel.holdsBack head = true := by
      rw [holdsBack, hhead]
      simp
    rw [waiting, hbuffer, List.filter_cons_of_pos (by simpa using hhead)] at harrival
    cases harrival
    rw [next?_of_free hbuffer hfree, hhead, if_neg (UInt32.lt_irrefl 0)]

/-- An action changes nothing about what is unreliable, and delivers nothing. -/
theorem of_eq (h : Ordered past taken channel) (hsequenced : action.unsequenced? = none)
    (hreliable : after.incomingReliable = channel.incomingReliable)
    (hcounter : after.incomingUnreliable = channel.incomingUnreliable)
    (hbuffer : after.unreliable = channel.unreliable) :
    Ordered (past ++ [action]) taken after where
  numbers := by rw [hreliable]; exact h.numbers
  ascending := h.ascending
  counted := by rw [hcounter]; exact h.counted
  ahead := by rw [hcounter, hbuffer]; exact h.ahead
  sorted := by rw [hbuffer]; exact h.sorted
  unsequenced := by
    rw [List.filterMap_append, List.filterMap_cons_none hsequenced, List.filterMap_nil,
      List.append_nil, waiting, hbuffer]
    exact h.unsequenced

theorem queueUnreliable (h : Ordered past taken channel) {arrival : Arrival}
    {buffer : List Arrival} (hnumber : channel.incomingUnreliable < arrival.unreliableSequence)
    (hbuffer : arrival.insertInto Arrival.unreliableSequence channel.unreliable = some buffer) :
    Ordered (past ++ [.unreliable arrival]) taken { channel with unreliable := buffer } := by
  have hne : arrival.unreliableSequence ≠ 0 :=
    (UInt32.ne_of_lt (UInt32.lt_of_le_of_lt UInt32.zero_le hnumber)).symm
  refine { h with ahead := ?_, sorted := h.sorted.insertInto hbuffer, unsequenced := ?_ }
  · intro entry hentry hentry_ne
    rcases (Arrival.mem_of_insertInto hbuffer).mp hentry with rfl | hentry
    · exact hnumber
    · exact h.ahead entry hentry hentry_ne
  · obtain ⟨older, newer, hsplit, rfl, -, -⟩ := Arrival.insertInto_eq_some hbuffer
    have hunsequenced := h.unsequenced
    rw [waiting, hsplit] at hunsequenced
    simpa [List.filterMap_cons, Action.unsequenced?, waiting, hne] using hunsequenced

theorem queueUnsequenced (h : Ordered past taken channel) {arrival : Arrival}
    (hzero : arrival.unreliableSequence = 0) :
    Ordered (past ++ [.unsequenced arrival]) taken (channel.queueUnsequenced arrival) := by
  refine { h with ahead := ?_, sorted := h.sorted.insertUnsequenced hzero, unsequenced := ?_ }
  · intro entry hentry hne
    rcases List.mem_append.mp hentry with hentry | hentry
    · exact h.ahead entry ((List.takeWhile_prefix _).subset hentry) hne
    · rcases List.mem_cons.mp hentry with rfl | hentry
      · exact absurd hzero hne
      · exact h.ahead entry ((List.dropWhile_suffix _).subset hentry) hne
  · -- Nothing unsequenced stands behind the place where it goes.
    have hlast : (channel.queueUnsequenced arrival).waiting = channel.waiting ++ [arrival] := by
      have hsplit := List.takeWhile_append_dropWhile
        (p := (·.unreliableSequence == 0)) (l := channel.unreliable)
      have hback := h.sorted.filter_dropWhile
      rw [waiting, waiting, Channel.queueUnsequenced]
      dsimp only
      conv_rhs => rw [← hsplit]
      rw [List.filter_append, List.filter_append, hback, List.append_nil,
        List.filter_cons_of_pos (by simpa using hzero), hback]
    rw [hlast, List.filterMap_append, h.unsequenced, List.append_assoc]
    rfl

theorem takeReliable (h : Ordered past taken channel) {arrival : Arrival} {rest : List Arrival}
    (hsequence : arrival.sequence.toNat = channel.incomingReliable.toNat + 1)
    (hspan : arrival.sequence.toNat + arrival.span.toNat ≤ 4294967296) :
    Ordered (past ++ [.receive]) (taken ++ [.reliable arrival]) { channel with
      reliable := rest
      incomingReliable := arrival.sequence + (arrival.span - 1) } := by
  have hcounter : (arrival.sequence + (arrival.span - 1)).toNat =
      channel.incomingReliable.toNat + arrival.span.toNat := by
    have hlast := arrival.toNat_last hspan
    omega
  refine { h with numbers := ?_, ascending := ?_, counted := ?_, unsequenced := ?_ }
  · dsimp only
    rw [List.flatMap_append, h.numbers, hcounter, List.flatMap_singleton, Delivered.numbers,
      hsequence, Nat.add_comm channel.incomingReliable.toNat 1, List.range'_append_1]
  · simpa [List.filterMap_cons, Delivered.unreliableNumber?] using h.ascending
  · simpa [List.filterMap_cons, Delivered.unreliableNumber?] using h.counted
  · have hunsequenced := h.unsequenced
    rw [waiting] at hunsequenced
    simpa [List.filterMap_cons, Action.unsequenced?, Delivered.unsequenced?, waiting]
      using hunsequenced

theorem takeSequenced (h : Ordered past taken channel) {arrival : Arrival} {rest : List Arrival}
    (hbuffer : channel.unreliable = arrival :: rest) (hpos : 0 < arrival.unreliableSequence) :
    Ordered (past ++ [.receive]) (taken ++ [.sequenced arrival]) { channel with
      unreliable := rest
      incomingUnreliable := arrival.unreliableSequence } := by
  have hne : arrival.unreliableSequence ≠ 0 := (UInt32.ne_of_lt hpos).symm
  have hsorted := h.sorted
  have hahead := h.ahead
  rw [hbuffer] at hsorted hahead
  have hlater := hahead arrival List.mem_cons_self hne
  have hnumbers : (taken ++ [Delivered.sequenced arrival]).filterMap Delivered.unreliableNumber? =
      taken.filterMap Delivered.unreliableNumber? ++ [arrival.unreliableSequence] := by
    simp [Delivered.unreliableNumber?]
  have hbefore (number : UInt32)
      (hnumber : number ∈ taken.filterMap Delivered.unreliableNumber?) :
      number < arrival.unreliableSequence :=
    UInt32.lt_of_le_of_lt (h.counted number hnumber) hlater
  refine {
    numbers := by simpa [Delivered.numbers] using h.numbers
    ascending := ?_
    counted := ?_
    ahead := fun entry hentry _ ↦ hsorted.lt_of_mem_tail hne hentry
    sorted := hsorted.tail
    unsequenced := ?_ }
  · rw [hnumbers, List.pairwise_append]
    refine ⟨h.ascending, List.pairwise_singleton _ _, fun number hnumber other hother ↦ ?_⟩
    rw [List.mem_singleton.mp hother]
    exact hbefore number hnumber
  · intro number hnumber
    rw [hnumbers, List.mem_append, List.mem_singleton] at hnumber
    rcases hnumber with hnumber | rfl
    · exact UInt32.le_of_lt (hbefore number hnumber)
    · exact UInt32.le_refl _
  · have hunsequenced := h.unsequenced
    rw [waiting, hbuffer] at hunsequenced
    simpa [List.filterMap_cons, Action.unsequenced?, Delivered.unsequenced?, waiting, hne]
      using hunsequenced

theorem takeUnsequenced (h : Ordered past taken channel) {arrival : Arrival}
    {rest : List Arrival} (hbuffer : channel.unreliable = arrival :: rest)
    (hzero : arrival.unreliableSequence = 0) :
    Ordered (past ++ [.receive]) (taken ++ [.unsequenced arrival])
      { channel with unreliable := rest } := by
  have hsorted := h.sorted
  have hahead := h.ahead
  have hunsequenced := h.unsequenced
  rw [hbuffer] at hsorted hahead
  rw [waiting, hbuffer, List.filter_cons_of_pos (by simpa using hzero)] at hunsequenced
  refine {
    numbers := by simpa [Delivered.numbers] using h.numbers
    ascending := by simpa [List.filterMap_cons, Delivered.unreliableNumber?] using h.ascending
    counted := by simpa [List.filterMap_cons, Delivered.unreliableNumber?] using h.counted
    ahead := fun entry hentry ↦ hahead entry (List.mem_cons_of_mem _ hentry)
    sorted := hsorted.tail
    unsequenced := ?_ }
  simpa [List.filterMap_cons, Action.unsequenced?, Delivered.unsequenced?, waiting]
    using hunsequenced

/-- The next unreliable packet with a number is not early, and its number goes on ascending. -/
theorem receive_sequenced (h : Ordered past taken channel) {arrival : Arrival}
    (hnext : channel.next? = some (.sequenced arrival)) :
    arrival.sequence ≤ channel.incomingReliable ∧
      ∀ number ∈ taken.filterMap Delivered.unreliableNumber?,
        number < arrival.unreliableSequence := by
  have hacts := channel.receive_acts
  rw [hnext] at hacts
  generalize channel.receive.2 = after at hacts
  cases hacts with
  | sequencedDelivered hbuffer hpos hready =>
    have hmem : arrival ∈ channel.unreliable := by
      rw [hbuffer]
      exact List.mem_cons_self
    have hlater := h.ahead arrival hmem (UInt32.ne_of_lt hpos).symm
    exact ⟨hready, fun number hnumber ↦
      UInt32.lt_of_le_of_lt (h.counted number hnumber) hlater⟩

/-- What was delivered earlier took up no more numbers. -/
theorem counter_le {earlier : List Action} {before : List Delivered} {old : Channel}
    (h : Ordered past taken channel) (hold : Ordered earlier before old)
    (hbegins : before <+: taken) : old.incomingReliable ≤ channel.incomingReliable := by
  obtain ⟨later, rfl⟩ := hbegins
  have hlength := congrArg List.length h.numbers
  have hbefore := congrArg List.length hold.numbers
  rw [List.flatMap_append, List.length_append, List.length_range'] at hlength
  rw [List.length_range'] at hbefore
  rw [UInt32.le_iff_toNat_le]
  omega

/-- An action keeps the order, if what it delivers does not go beyond the greatest word. -/
theorem acts (h : Ordered past taken channel) (hacts : channel.Acts action next after)
    (hzero : ∀ arrival, action = .unsequenced arrival → arrival.unreliableSequence = 0)
    (hspan : ∀ entry ∈ channel.reliable,
      entry.sequence.toNat + entry.span.toNat ≤ 4294967296) :
    Ordered (past ++ [action]) (taken ++ next.toList) after := by
  cases hacts with
  | refused hsequenced =>
    rw [Option.toList_none, List.append_nil]
    exact h.of_eq hsequenced rfl rfl rfl
  | reliable =>
    rw [Option.toList_none, List.append_nil]
    exact h.of_eq rfl rfl rfl rfl
  | unreliable _ hnumber hbuffer =>
    rw [Option.toList_none, List.append_nil]
    exact h.queueUnreliable hnumber hbuffer
  | @unsequenced arrival =>
    rw [Option.toList_none, List.append_nil]
    exact h.queueUnsequenced (hzero arrival rfl)
  | fragment =>
    rw [Option.toList_none, List.append_nil]
    exact h.of_eq rfl rfl rfl rfl
  | nothing =>
    rw [Option.toList_none, List.append_nil]
    exact h.of_eq rfl rfl rfl rfl
  | @delivered stale rest arrival _ hbuffer hsequence =>
    exact h.takeReliable hsequence (hspan arrival (by rw [hbuffer]; simp))
  | sequencedDelivered hbuffer hpos => exact h.takeSequenced hbuffer hpos
  | unsequencedDelivered hbuffer hnumber => exact h.takeUnsequenced hbuffer hnumber

end Ordered

/-- The next reliable packet begins one past the counter and moves it on by its span. -/
theorem receive_reliable {channel : Channel} {arrival : Arrival}
    (hspan : ∀ entry ∈ channel.reliable,
      entry.sequence.toNat + entry.span.toNat ≤ 4294967296)
    (hnext : channel.next? = some (.reliable arrival)) :
    arrival.sequence.toNat = channel.incomingReliable.toNat + 1 ∧
      channel.receive.2.incomingReliable.toNat =
        channel.incomingReliable.toNat + arrival.span.toNat := by
  have hacts := channel.receive_acts
  rw [hnext] at hacts
  generalize channel.receive.2 = after at hacts ⊢
  cases hacts with
  | @delivered stale rest _ _ hbuffer hsequence =>
    have hlast := arrival.toNat_last (hspan arrival (by rw [hbuffer]; simp))
    refine ⟨hsequence, ?_⟩
    dsimp only
    omega

/-- What was delivered earlier in a run was delivered. -/
theorem run_prefix {front actions : List Action} (h : front <+: actions) :
    (run front).1 <+: (run actions).1 := by
  induction actions using List.reverseRecOn with
  | nil => exact List.prefix_nil.mp h ▸ List.prefix_rfl
  | append_singleton actions action ih =>
    rcases List.prefix_concat_iff.mp h with rfl | h
    · exact List.prefix_rfl
    · rw [run_concat]
      exact (ih h).trans (List.prefix_append _ _)

theorem run_ordered {actions : List Action}
    (hzero : ∀ arrival, .unsequenced arrival ∈ actions → arrival.unreliableSequence = 0)
    (hspan : ∀ front, front <+: actions → ∀ entry ∈ (run front).2.reliable,
      entry.sequence.toNat + entry.span.toNat ≤ 4294967296) :
    Ordered actions (run actions).1 (run actions).2 := by
  induction actions using List.reverseRecOn with
  | nil => exact .start
  | append_singleton actions action ih =>
    have hbefore := ih
      (fun arrival harrival ↦ hzero arrival (List.mem_append_left _ harrival))
      (fun front hfront ↦ hspan front (hfront.trans (List.prefix_append _ _)))
    rw [run_concat]
    refine hbefore.acts (act_acts _ action) (fun arrival harrival ↦ hzero arrival ?_)
      (hspan actions (List.prefix_append _ _))
    rw [harrival]
    exact List.mem_append_right _ List.mem_cons_self

/-- If nothing unsequenced has a number and no entry of the reliable buffer ever goes beyond the
greatest word, the deliveries are in order. The reliable numbers that were delivered are those
from 1 to the counter, each once, and the counter never goes back; the next reliable packet that
is delivered begins one past it and moves it on by its span. The unreliable numbers that were
delivered ascend, and the next one goes on so; it is not delivered before its reliable number
was. The unsequenced packets are delivered in the order in which they came, and as long as one
waits, the next delivery returns the oldest of them. -/
theorem delivered_in_order {actions : List Action} {taken : List Delivered} {channel : Channel}
    (hrun : run actions = (taken, channel))
    (hzero : ∀ arrival, .unsequenced arrival ∈ actions → arrival.unreliableSequence = 0)
    (hspan : ∀ front, front <+: actions → ∀ entry ∈ (run front).2.reliable,
      entry.sequence.toNat + entry.span.toNat ≤ 4294967296) :
    channel.receive.1 = channel.next?.map Delivered.packet ∧
      taken.flatMap Delivered.numbers = List.range' 1 channel.incomingReliable.toNat ∧
      (∀ front, front <+: actions →
        (run front).2.incomingReliable ≤ channel.incomingReliable) ∧
      (∀ arrival, channel.next? = some (.reliable arrival) →
        arrival.sequence.toNat = channel.incomingReliable.toNat + 1 ∧
          channel.receive.2.incomingReliable.toNat =
            channel.incomingReliable.toNat + arrival.span.toNat) ∧
      (taken.filterMap Delivered.unreliableNumber?).Pairwise (· < ·) ∧
      (∀ arrival, channel.next? = some (.sequenced arrival) →
        arrival.sequence ≤ channel.incomingReliable ∧
          ∀ number ∈ taken.filterMap Delivered.unreliableNumber?,
            number < arrival.unreliableSequence) ∧
      actions.filterMap Action.unsequenced? =
        taken.filterMap Delivered.unsequenced? ++ channel.waiting ∧
      ∀ arrival ∈ channel.waiting.head?, channel.next? = some (.unsequenced arrival) := by
  have hordered : Ordered actions taken channel := by
    have h := run_ordered hzero hspan
    rw [hrun] at h
    exact h
  have hlast := hspan actions List.prefix_rfl
  rw [hrun] at hlast
  refine ⟨channel.receive_fst, hordered.numbers, fun front hfront ↦ ?_,
    fun arrival ↦ receive_reliable hlast, hordered.ascending,
    fun arrival ↦ hordered.receive_sequenced, hordered.unsequenced,
    fun arrival ↦ hordered.next?_eq_of_waiting⟩
  have hearlier := run_ordered
    (fun arrival harrival ↦ hzero arrival (hfront.subset harrival))
    (fun other hother ↦ hspan other (hother.trans hfront))
  have hbegins := run_prefix hfront
  rw [hrun] at hbegins
  exact hordered.counter_le hearlier hbegins

/-- A run of two fragments takes up the number of another packet, and unreliable packets come
too early and too late. -/
def jumble : List Action :=
  [.unreliable ⟨1, 5, .packet ⟨[5], .plain⟩⟩,
    .reliable ⟨2, 0, .packet ⟨[2], .reliable⟩⟩,
    .unsequenced ⟨0, 0, .packet ⟨[7], .unsequenced⟩⟩,
    .reliable ⟨1, 0, .fragments ⟨2, 2, 1, [⟨0, 0, [1]⟩]⟩⟩,
    .unsequenced ⟨9, 0, .packet ⟨[8], .unsequenced⟩⟩,
    .receive,
    .fragment 1 1 1 [9],
    .receive,
    .receive,
    .unreliable ⟨2, 4, .packet ⟨[4], .plain⟩⟩,
    .receive]

/-- The packet with the number 2 is not delivered, since the run has taken up its number. -/
theorem delivered_in_order_jumble : ∃ taken channel, run jumble = (taken, channel) ∧
    channel.pending = 2 ∧ channel.incomingReliable = 2 ∧
    taken.flatMap Delivered.numbers = [1, 2] ∧
    ∃ arrival, channel.next? = some (.sequenced arrival) ∧
      taken.filterMap Delivered.unreliableNumber? = [4] ∧ 4 < arrival.unreliableSequence := by
  have hzero (arrival : Arrival) (harrival : .unsequenced arrival ∈ jumble) :
      arrival.unreliableSequence = 0 := by
    simp only [jumble, List.mem_cons, reduceCtorEq, false_or, Action.unsequenced.injEq,
      List.not_mem_nil, or_false] at harrival
    rcases harrival with rfl | rfl <;> rfl
  have hspan (front : List Action) (hfront : front <+: jumble) :
      ∀ entry ∈ (run front).2.reliable,
        entry.sequence.toNat + entry.span.toNat ≤ 4294967296 := by
    have hall : ∀ n < 12, ∀ entry ∈ (run (jumble.take n)).2.reliable,
        entry.sequence.toNat + entry.span.toNat ≤ 4294967296 := by decide
    rw [List.prefix_iff_eq_take.mp hfront]
    exact hall _ (Nat.lt_succ_of_le hfront.length_le)
  obtain ⟨-, hnumbers, -, -, -, hsequenced, -⟩ :=
    delivered_in_order (rfl : run jumble = _) hzero hspan
  have hnext : (run jumble).2.next? =
      some (.sequenced ⟨1, 5, .packet ⟨[5], .plain⟩⟩) := by decide
  exact ⟨_, _, rfl, by decide, by decide, hnumbers, _, hnext, by decide,
    (hsequenced _ hnext).2 4 (by decide)⟩

end Channel

end ReliableDatagram
