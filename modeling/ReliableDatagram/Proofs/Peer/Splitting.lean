import ReliableDatagram.Proofs.Peer.Lifecycle
import ReliableDatagram.Proofs.Peer.Naming

/-!
# How a packet is split

A packet is refused, and then nothing has changed, or it is queued. One that fits a datagram
becomes one command. A larger one is split: its fragments tile the payload, each at the multiple of
the fragment length that its number says, and their commands take consecutive numbers. All fragments
name the next number of the channel that the packet was submitted on as the first of these. It is,
unless that channel bears the id of the control channel: the commands are numbered by the control
counter then. However often the fragments of a packet arrive, and in whatever order, the packet is
whole once each of them has arrived, and not before.
-/

namespace ReliableDatagram

/-! ## Arrivals in any order -/

namespace Reassembly

variable {start : UInt32} {size : Nat} {payload : Bytes} {reassembly : Reassembly}
  {arrivals : List Fragment}

/-- What fragments that arrive one after the other make of a reassembly. -/
def gather (reassembly : Reassembly) (arrivals : List Fragment) : Reassembly :=
  arrivals.foldl (fun kept fragment ↦
    (kept.insert fragment.number fragment.offset.toNat fragment.payload).2) reassembly

theorem pieces_subset_gather (reassembly : Reassembly) (arrivals : List Fragment) :
    reassembly.pieces ⊆ (reassembly.gather arrivals).pieces := by
  induction arrivals generalizing reassembly with
  | nil => exact List.Subset.refl _
  | cons fragment rest ih =>
    exact List.Subset.trans (reassembly.pieces_subset_insert _ _ _) (ih _)

/-- The reassembly still collects fragments of the packet, has kept each that arrived, and nothing
but what it had and what arrived. -/
theorem Collects.gather (h : Collects start size payload reassembly) (hsize : 0 < size)
    (hsmall : payload.length < 4294967296)
    (harrivals : arrivals ⊆ Fragment.ofPayload start size payload) :
    Collects start size payload (reassembly.gather arrivals) ∧
      (∀ fragment ∈ arrivals, fragment.toPiece ∈ (reassembly.gather arrivals).pieces) ∧
      ∀ piece ∈ (reassembly.gather arrivals).pieces, piece ∈ reassembly.pieces ∨
        piece ∈ arrivals.map Fragment.toPiece := by
  induction arrivals generalizing reassembly with
  | nil => exact ⟨h, by simp, fun _ hpiece ↦ .inl hpiece⟩
  | cons fragment rest ih =>
    obtain ⟨hfragment, hrest⟩ := List.cons_subset.mp harrivals
    obtain ⟨hcollects, hkept, hgenuine⟩ := ih (h.insert hfragment) hrest
    refine ⟨hcollects, fun other hother ↦ ?_, fun piece hpiece ↦ ?_⟩
    · rcases List.mem_cons.mp hother with rfl | hother
      · exact pieces_subset_gather _ rest (h.mem_insert hsize hsmall hfragment)
      · exact hkept other hother
    · rw [List.map_cons, List.mem_cons, or_left_comm, ← or_assoc]
      refine (hgenuine piece hpiece).imp_left fun hinserted ↦ ?_
      unfold Reassembly.insert at hinserted
      split at hinserted
      · exact .inr hinserted
      · exact List.mem_cons.mp hinserted

/-- The packet is complete exactly when each of its fragments has arrived, and then it is whole. -/
theorem gather_isComplete_iff (hsize : 0 < size) (hsmall : payload.length < 4294967296)
    (harrivals : arrivals ⊆ Fragment.ofPayload start size payload) {whole : Reassembly}
    (hwhole : whole = gather (.empty payload.length
      (UInt32.ofNat (payload.chunks size).length)) arrivals) :
    (whole.isComplete = true ↔ Fragment.ofPayload start size payload ⊆ arrivals) ∧
      (whole.isComplete = true → whole.bytes = payload) := by
  have hfresh : Collects start size payload _ := .empty hsize hsmall
  obtain ⟨hcollects, hkept, hgenuine⟩ := hfresh.gather hsize hsmall harrivals
  rw [← hwhole] at hcollects hkept hgenuine
  rw [isComplete, beq_iff_eq]
  refine ⟨⟨fun hcomplete fragment hfragment ↦ ?_, fun hall ↦ ?_⟩,
    fun hcomplete ↦ hcollects.bytes_eq hcomplete hsize hsmall⟩
  · -- The piece that was kept for the fragment is that of an arrival with the same number.
    have hpiece := hcollects.mem_of_complete hcomplete hsize hsmall hfragment
    obtain ⟨arrival, harrival, hsame⟩ :=
      List.mem_map.mp ((hgenuine _ hpiece).resolve_left List.not_mem_nil)
    have hnumber : fragment.number = arrival.number := congrArg Piece.number hsame.symm
    rwa [Fragment.eq_of_number_eq hsize hsmall hfragment (harrivals harrival) hnumber]
  · exact hcollects.remaining_eq_zero hsize hsmall fun fragment hfragment ↦
      hkept fragment (hall hfragment)

end Reassembly

/-! ## Fragments -/

namespace Fragment

/-- The fragment carries the piece with this index of a payload that is split into pieces of this
size, and says so. -/
structure Carries (fragment : Fragment) (start : UInt32) (size : Nat) (payload : Bytes)
    (index : Nat) : Prop where
  start : fragment.start = start
  count : fragment.count.toNat = (payload.length + size - 1) / size
  number : fragment.number.toNat = index
  total : fragment.total.toNat = payload.length
  offset : fragment.offset.toNat = index * size
  payload : fragment.payload =
    payload.extract (index * size) (min ((index + 1) * size) payload.length)

/-- No word in a fragment is cut off as long as the length of the payload fits one. -/
theorem carries_of_getElem? {start : UInt32} {size : Nat} {payload : Bytes} {index : Nat}
    {fragment : Fragment} (hsize : 0 < size) (hsmall : payload.length < 4294967296)
    (h : (ofPayload start size payload)[index]? = some fragment) :
    fragment.Carries start size payload index := by
  rw [getElem?_ofPayload start hsize] at h
  split at h
  · rename_i hinside
    cases h
    have hexact {n : Nat} (hle : n ≤ payload.length) : (UInt32.ofNat n).toNat = n := by
      rw [UInt32.toNat_ofNat', Nat.mod_eq_of_lt (by omega)]
    have hindex : index ≤ index * size := Nat.le_mul_of_pos_right index hsize
    refine {
      start := rfl
      count := (hexact (payload.length_chunks_le hsize)).trans (payload.length_chunks hsize)
      number := hexact (by omega)
      total := hexact (Nat.le_refl _)
      offset := hexact (by omega)
      payload := ?_ }
    -- The last piece ends with the payload, whatever else would still fit.
    rw [List.extract_eq_take_drop, List.take_eq_take_iff, List.length_drop, Nat.succ_mul]
    omega
  · cases h

end Fragment

namespace Peer

variable {peer after : Peer} {channel : UInt8} {packet : Packet} {value : Channel}

/-! ## Queueing -/

/-- Fragments on the control channel take consecutive control numbers. -/
theorem queueFragments_control (peer : Peer) (fragments : List Fragment) :
    ∃ total, peer.queueFragments controlChannel fragments = { peer with
      outgoingTotal := total
      controlSequence := peer.controlSequence + UInt32.ofNat fragments.length
      reliable := peer.reliable ++ (fragments.mapIdx fun k fragment ↦
        (⟨controlChannel, Command.acknowledgeFlag, peer.controlSequence + 1 + UInt32.ofNat k,
          .sendFragment fragment⟩ : Command)).map ({ command := · }) } := by
  induction fragments generalizing peer with
  | nil => exact ⟨peer.outgoingTotal, by simp [queueFragments]⟩
  | cons fragment rest ih =>
    obtain ⟨total, hrest⟩ := ih (peer.queueControl (.sendFragment fragment))
    refine ⟨total, ?_⟩
    change (peer.queueControl (.sendFragment fragment)).queueFragments controlChannel rest = _
    rw [hrest, queueControl_eq]
    simp only [Word.add_one_add_ofNat, List.mapIdx_cons, List.map_cons, List.append_assoc,
      List.singleton_append, List.length_cons]
    rfl

/-- The fragments wait behind the reliable commands that waited before, and tile the payload. -/
structure Splits (peer : Peer) (channel : UInt8) (start : UInt32) (payload : Bytes)
    (fragments : List Fragment) (after : Peer) : Prop where
  acknowledgements : after.acknowledgements = peer.acknowledgements
  sent : after.sent = peer.sent
  unreliable : after.unreliable = peer.unreliable
  reliable : after.reliable = peer.reliable ++ (fragments.mapIdx fun k fragment ↦
    (⟨channel, Command.acknowledgeFlag, peer.lastNumber channel + 1 + UInt32.ofNat k,
      .sendFragment fragment⟩ : Command)).map ({ command := · })
  length : fragments.length = (payload.length + peer.fragmentLength - 1) / peer.fragmentLength
  carries : ∀ k (fragment : Fragment), fragments[k]? = some fragment →
    fragment.Carries start peer.fragmentLength payload k

theorem queueFragments_splits (hvalue : peer.channel? channel = some value) (start : UInt32)
    {payload : Bytes} (hsmall : payload.length < 4294967296) :
    Splits peer channel start payload (Fragment.ofPayload start peer.fragmentLength payload)
      (peer.queueFragments channel (Fragment.ofPayload start peer.fragmentLength payload)) := by
  have hlength : (Fragment.ofPayload start peer.fragmentLength payload).length =
      (payload.length + peer.fragmentLength - 1) / peer.fragmentLength := by
    rw [Fragment.length_ofPayload, payload.length_chunks peer.fragmentLength_pos]
  have hcarries (k : Nat) (fragment : Fragment)
      (h : (Fragment.ofPayload start peer.fragmentLength payload)[k]? = some fragment) :=
    Fragment.carries_of_getElem? peer.fragmentLength_pos hsmall h
  by_cases hcontrol : channel = controlChannel
  · subst hcontrol
    have hlast : peer.lastNumber controlChannel = peer.controlSequence := if_pos rfl
    obtain ⟨total, hqueued⟩ := peer.queueFragments_control
      (Fragment.ofPayload start peer.fragmentLength payload)
    rw [hqueued]
    exact ⟨rfl, rfl, rfl, by rw [hlast], hlength, hcarries⟩
  · have hlast : peer.lastNumber channel = value.outgoingReliable := by
      rw [lastNumber, if_neg hcontrol, hvalue]
    obtain ⟨total, hqueued⟩ := queueFragments_eq hcontrol hvalue
      (Fragment.ofPayload start peer.fragmentLength payload)
    rw [hqueued]
    exact ⟨rfl, rfl, rfl, by rw [hlast], hlength, hcarries⟩

/-- One command that carries the whole packet waits behind the others of its kind. -/
structure Encloses (peer : Peer) (channel : UInt8) (packet : Packet) (command : Command)
    (after : Peer) : Prop where
  acknowledgements : after.acknowledgements = peer.acknowledgements
  sent : after.sent = peer.sent
  reliable : after.reliable =
    peer.reliable ++ if packet.isReliable then [{ command := command }] else []
  unreliable : after.unreliable =
    peer.unreliable ++ if packet.isReliable then [] else [{ command := command }]
  channel : command.channel = channel
  whole : command.tag ≠ .sendFragment
  payload : command.body.payload? = some packet.payload

/-- Numbering leaves the channel and the payload of a command as they are. -/
theorem number_payload (peer : Peer) (command : Command) :
    (peer.number command).1.channel = command.channel ∧
      (peer.number command).1.body.payload? = command.body.payload? := by
  unfold number
  dsimp only
  repeat' split
  all_goals
    refine ⟨rfl, ?_⟩
    try first | rfl | (rename_i hbody; rw [hbody]; rfl)

theorem queueWhole_encloses (peer : Peer) (channel : UInt8) (packet : Packet) :
    ∃ command, Encloses peer channel packet command
      (peer.queueCommand (wholeCommand channel packet)) := by
  obtain ⟨hchannel, hwhole, hpayload, hasks⟩ := wholeCommand_fields channel packet
  obtain ⟨htag, hflags, hsent, hreliable, hunreliable, hacknowledgements⟩ := number_frame
    { peer with outgoingTotal := peer.outgoingTotal +
        UInt32.ofNat (wholeCommand channel packet).encodedLength } (wholeCommand channel packet)
  obtain ⟨hnumbered, hsame⟩ := number_payload
    { peer with outgoingTotal := peer.outgoingTotal +
        UInt32.ofNat (wholeCommand channel packet).encodedLength } (wholeCommand channel packet)
  obtain ⟨numbered, counted, hresult⟩ : ∃ numbered counted, number
    { peer with outgoingTotal := peer.outgoingTotal +
        UInt32.ofNat (wholeCommand channel packet).encodedLength }
      (wholeCommand channel packet) = (numbered, counted) := ⟨_, _, rfl⟩
  rw [hresult] at htag hflags hsent hreliable hunreliable hacknowledgements hnumbered hsame
  have hkind : numbered.requiresAcknowledgement = packet.isReliable := by
    rw [Command.requiresAcknowledgement, hflags, ← hasks, Command.requiresAcknowledgement]
  refine ⟨numbered, ?_⟩
  unfold queueCommand
  dsimp only
  rw [hresult, hkind]
  dsimp only at hsent hreliable hunreliable hacknowledgements
  split <;> rename_i hkept
  all_goals
    refine {
      acknowledgements := hacknowledgements
      sent := hsent
      reliable := ?_
      unreliable := ?_
      channel := hnumbered.trans hchannel
      whole := htag ▸ hwhole
      payload := hsame.trans hpayload }
    all_goals simp [hkept, hreliable, hunreliable]

/-! ## Sending -/

/-- A packet is refused exactly when the peer is not connected, the channel does not exist, or the
packet is too large; then nothing has changed. Otherwise it waits behind the other commands, whole
if it fits a datagram and in fragments if not. The fragments begin with the number that they name as
the first one exactly if the channel is a data channel, or the counter of the control channel stands
as its own does; and inserted in any order, with any repetitions, they make up the packet exactly
when each of them has been inserted. -/
theorem send_splits (peer : Peer) (channel : UInt8) (packet : Packet) :
    ((∃ error, peer.send channel packet = .error error) ↔ peer.state ≠ .connected ∨
      peer.channel? channel = none ∨ peer.settings.packetSizeLimit < packet.size ∨
      4294967295 < packet.size) ∧
    ((∃ error, peer.send channel packet = .error error) →
      peer.act (.send channel packet) = .ok (none, peer)) ∧
    ∀ after, peer.send channel packet = .ok after →
      ∃ value, peer.channel? channel = some value ∧
        (packet.size ≤ peer.fragmentLength →
          ∃ command, Encloses peer channel packet command after) ∧
        (peer.fragmentLength < packet.size → ∃ fragments,
          Splits peer channel (value.outgoingReliable + 1) packet.payload fragments after ∧
          (value.outgoingReliable + 1 = peer.lastNumber channel + 1 ↔
            channel ≠ controlChannel ∨ value.outgoingReliable = peer.controlSequence) ∧
          ∀ arrivals ⊆ fragments, ∀ kept, kept = Reassembly.gather
              (.empty packet.size (UInt32.ofNat fragments.length)) arrivals →
            (kept.isComplete = true ↔ fragments ⊆ arrivals) ∧
              (kept.isComplete = true → kept.bytes = packet.payload)) := by
  refine ⟨?_, ?_, fun after hsend ↦ ?_⟩
  · rw [← not_iff_not]
    have haccepted : (¬∃ error, peer.send channel packet = .error error) ↔
        ∃ after, peer.send channel packet = .ok after := by
      cases peer.send channel packet <;> simp
    simp only [haccepted, send_eq_ok_iff, Word.maximum]
    cases peer.channel? channel <;> simp
  · rintro ⟨error, herror⟩
    simp only [act, herror]
  · obtain ⟨-, value, hvalue, -, hmaximum, rfl⟩ := send_eq_ok_iff.mp hsend
    have hsmall : packet.payload.length < 4294967296 := Nat.lt_succ_of_le hmaximum
    refine ⟨value, hvalue, fun hfits ↦ ?_, fun hexceeds ↦ ?_⟩
    · rw [if_neg (by omega)]
      exact peer.queueWhole_encloses channel packet
    · rw [if_pos hexceeds]
      refine ⟨_, queueFragments_splits hvalue _ hsmall, ?_, fun arrivals harrivals kept hkept ↦ ?_⟩
      · rw [lastNumber, hvalue]
        split <;> rename_i hcontrol <;> simp [hcontrol]
      · rw [Fragment.length_ofPayload] at hkept
        exact Reassembly.gather_isComplete_iff peer.fragmentLength_pos hsmall harrivals hkept

/-- Settings that allow as many channels as there are channel ids. -/
def broad : Settings := { channelCount := ⟨1, 256⟩, mtu := ⟨100, 100⟩, defaultMtu := 100 }

/-- A connection with a channel for each id. -/
def opened : List Action :=
  let context : Context := ⟨1000, 0, 0⟩
  [.connect ⟨"10.0.0.1", 4000⟩ 256 7 context,
    .handle ⟨0, 0, 1, 1000, 7⟩ ⟨controlChannel, Command.acknowledgeFlag, 1,
      .verifyConnect ⟨3, 100, 32768, 256, 0, 0, broad.throttle⟩⟩ context]

/-- On the channel that bears the id of the control channel, the fragments of a packet name 1 as
their first number, though the first of them is sent under number 2. -/
theorem send_splits_misnumbered : ∃ events peer after value fragments,
    (vacant 0 broad).run opened = .ok (events, peer) ∧
      peer.send controlChannel ⟨List.replicate 60 7, .reliable⟩ = .ok after ∧
      peer.channel? controlChannel = some value ∧
      Splits peer controlChannel (value.outgoingReliable + 1) (List.replicate 60 7) fragments
        after ∧
      value.outgoingReliable + 1 = 1 ∧ peer.lastNumber controlChannel + 1 = 2 ∧
      fragments.length = 2 := by
  have hreplay : ((vacant 0 broad).run opened).toOption.any (fun result ↦
      (result.2.send controlChannel ⟨List.replicate 60 7, .reliable⟩).toOption.isSome &&
        result.2.fragmentLength == 56 && result.2.controlSequence == 1 &&
          (result.2.channel? controlChannel).any (·.outgoingReliable == 0)) = true := by
    decide +kernel
  obtain ⟨⟨events, peer⟩, hrun, hends⟩ := exists_of_any_toOption hreplay
  simp only [Bool.and_eq_true, beq_iff_eq, Option.any_eq_true] at hends
  obtain ⟨⟨⟨hsends, hlength⟩, hcontrol⟩, value, hvalue, hnone⟩ := hends
  obtain ⟨after, hafter⟩ := Option.isSome_iff_exists.mp hsends
  have hsend : peer.send controlChannel ⟨List.replicate 60 7, .reliable⟩ = .ok after := by
    cases hresult : peer.send controlChannel ⟨List.replicate 60 7, .reliable⟩ with
    | error error =>
      rw [hresult] at hafter
      cases hafter
    | ok other =>
      rw [hresult] at hafter
      rw [Option.some.inj hafter]
  obtain ⟨-, -, hqueues⟩ := peer.send_splits controlChannel ⟨List.replicate 60 7, .reliable⟩
  obtain ⟨found, hfound, -, hlarge⟩ := hqueues after hsend
  obtain rfl : found = value := Option.some.inj (hfound.symm.trans hvalue)
  obtain ⟨fragments, hsplits, -, -⟩ := hlarge (by rw [hlength]; decide)
  have hlast : peer.lastNumber controlChannel = 1 := (if_pos rfl).trans hcontrol
  have hcount := hsplits.length
  rw [hlength] at hcount
  exact ⟨events, peer, after, found, fragments, hrun, hsend, hvalue, hsplits, by rw [hnone]; rfl,
    by rw [hlast]; rfl, hcount⟩

end Peer

end ReliableDatagram
