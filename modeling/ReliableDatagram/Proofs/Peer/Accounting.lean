import ReliableDatagram.Proofs.Peer.Transit

/-!
# How much is in flight

Whatever is asked of a peer and whatever arrives, its count of the payload in flight is exact
under any window but the greatest one, and never too high under any. Composing a datagram
brings it no further than the window. Under the greatest window nothing holds the commands
back, and the count wraps around.
-/

namespace ReliableDatagram

namespace Peer

variable {peer after : Peer} {settings : Settings} {id : UInt16}

/-- The commands in flight are short, and their payload is counted: never as more than it is,
and as exactly that if the window cannot become the greatest word. -/
structure Counted (settings : Settings) (peer : Peer) : Prop where
  short : ∀ outgoing ∈ peer.sent, Short outgoing
  within : peer.inTransit.toNat ≤ peer.flight
  exact : settings.window.upper.toNat < Word.maximum → peer.inTransit.toNat = peer.flight

theorem counted_of_empty (hsent : peer.sent = []) (htransit : peer.inTransit = 0) :
    Counted settings peer where
  short := by simp [hsent]
  within := by simp [flight, hsent, htransit]
  exact _ := by simp [flight, hsent, htransit]

theorem Frees.counted (h : Frees peer after) (hcounted : Counted settings peer) :
    Counted settings after := by
  obtain ⟨freed, hflight, htransit⟩ := h.count
  have hwithin := hcounted.within
  refine ⟨fun outgoing hmem ↦ hcounted.short outgoing (h.sent hmem), by omega, fun hupper ↦ ?_⟩
  have hexact := hcounted.exact hupper
  omega

theorem Settles.counted (h : Settles peer after) (hcounted : Counted settings peer) :
    Counted settings after := by
  cases h with
  | frees h => exact h.counted hcounted
  | clears hsent htransit => exact counted_of_empty hsent htransit

theorem toNat_transitLimit (peer : Peer) :
    peer.transitLimit.toNat = max peer.window.toNat peer.mtu.toNat := by
  rw [transitLimit, ← UInt16.toNat_toUInt32]
  change (if _ then _ else _ : UInt32).toNat = _
  split <;> rename_i hle <;> rw [UInt32.le_iff_toNat_le] at hle <;> omega

/-- The window is not the greatest word, so neither is the limit of the flight. -/
theorem toNat_transitLimit_lt (hwindow : peer.window ≤ settings.window.upper)
    (hupper : settings.window.upper.toNat < Word.maximum) :
    peer.transitLimit.toNat < Word.maximum := by
  have hsize := peer.mtu.toNat_lt
  rw [UInt32.le_iff_toNat_le] at hwindow
  rw [Word.maximum] at *
  rw [toNat_transitLimit]
  omega

theorem Launches.counted (h : Launches peer after) (hcounted : Counted settings peer)
    (hlimit : settings.window.upper.toNat < Word.maximum →
      peer.transitLimit.toNat < Word.maximum) : Counted settings after := by
  obtain ⟨added, hflight, hle, heq⟩ := h.count
  have hwithin := hcounted.within
  refine ⟨h.short hcounted.short, by omega, fun hupper ↦ ?_⟩
  rw [heq (hlimit hupper), hcounted.exact hupper, hflight]

theorem compose_counted (hcounted : Counted settings peer)
    (hwindow : peer.window ≤ settings.window.upper) (now : Stamp) (check : Bool) :
    Counted settings (peer.compose now check).2 := by
  rcases compose_flight hcounted.short now check with hreset | ⟨middle, hfrees, hlimit, hlaunches⟩
  · rw [hreset]
    exact counted_of_empty rfl rfl
  · refine hlaunches.counted (hfrees.counted hcounted) fun hupper ↦ ?_
    rw [hlimit]
    exact toNat_transitLimit_lt hwindow hupper

/-- Composing brings the count beyond what it was only as far as the window allows. -/
theorem compose_bound (hcounted : Counted settings peer) (now : Stamp) (check : Bool) :
    (peer.compose now check).2.inTransit.toNat ≤
      max peer.inTransit.toNat peer.transitLimit.toNat := by
  rcases compose_flight hcounted.short now check with hreset | ⟨middle, hfrees, hlimit, hlaunches⟩
  · rw [hreset]
    exact Nat.zero_le _
  · obtain ⟨freed, -, htransit⟩ := hfrees.count
    have hbound := hlaunches.bound
    rw [hlimit] at hbound
    omega

/-- Nothing but composing puts a command into flight. -/
theorem Undergoes.counted (h : Undergoes peer after) (hcounted : Counted settings peer)
    (hwindow : peer.window ≤ settings.window.upper) : Counted settings after := by
  cases h with
  | connects hconnect => exact (connect_settles hconnect).counted hcounted
  | accepts haccept => exact (accept_settles haccept).counted hcounted
  | refuses => exact hcounted
  | operates hoperates => exact hoperates.settles.counted hcounted
  | configures parameters => exact (peer.configureThrottle_frees parameters).counted hcounted
  | announces incoming outgoing =>
    exact (peer.queueControl_enqueues (.bandwidthLimit incoming outgoing)).frees.counted hcounted
  | composes now check => exact compose_counted hcounted hwindow now check
  | handles hhandle => exact (handle_settles hcounted.short hhandle).counted hcounted

theorem Reached.counted (h : Reached id settings peer) : Counted settings peer := by
  induction h with
  | vacant => exact counted_of_empty rfl rfl
  | act hreached hact ih =>
    exact (undergoes_of_act hact).counted ih (hreached.sized (upholds_caps settings)).sizes.2
  | operate _ hoperates ih => exact hoperates.settles.counted ih

/-- Whatever is asked of a peer and whatever arrives, it counts exactly the payload that is in
flight, as long as the settings keep the window below the greatest word. Composing a datagram
brings the count no further than the window, or a datagram if that is more, unless it was there
before; and it then is the sum of what is in flight as a number, so that no addition has wrapped
around. -/
theorem Reached.accounts (h : Reached id settings peer)
    (hupper : settings.window.upper.toNat < Word.maximum) :
    peer.inTransit.toNat = peer.flight ∧ ∀ now check,
      (peer.compose now check).2.inTransit.toNat = (peer.compose now check).2.flight ∧
      (peer.compose now check).2.inTransit.toNat ≤
        max peer.inTransit.toNat (max peer.window.toNat peer.mtu.toNat) := by
  refine ⟨h.counted.exact hupper, fun now check ↦ ?_⟩
  have hafter := h.compose now check
  have hbound := compose_bound h.counted now check
  rw [toNat_transitLimit] at hbound
  exact ⟨hafter.counted.exact hupper, hbound⟩

/-- Settings under which 60 bytes are the size of a datagram, and the window. -/
def narrow : Settings := { mtu := ⟨60, 60⟩, defaultMtu := 60, window := ⟨60, 60⟩ }

/-- A connection on which four packets of 16 bytes are submitted, one too many for the window. -/
def convoy : List Action :=
  let context : Context := ⟨1000, 0, 0⟩
  let packet : Packet := ⟨List.replicate 16 7, .reliable⟩
  [.connect ⟨"10.0.0.1", 4000⟩ 1 7 context,
    .handle ⟨0, 0, 1, 1000, 7⟩ ⟨controlChannel, Command.acknowledgeFlag, 1,
      .verifyConnect ⟨3, 60, 60, 1, 0, 0, Settings.throttle {}⟩⟩ context,
    .send 0 packet, .send 0 packet, .send 0 packet, .send 0 packet,
    .compose 1000 true, .compose 1001 true, .compose 1002 true, .compose 1003 true]

/-- Three of the packets are in flight, and the window keeps the fourth from following. -/
theorem accounts_convoy : ∃ events peer, (vacant 0 narrow).run convoy = .ok (events, peer) ∧
    peer.inTransit = 48 ∧ peer.flight = 48 ∧ ∀ now check,
      (peer.compose now check).2.inTransit.toNat = (peer.compose now check).2.flight ∧
      (peer.compose now check).2.inTransit.toNat ≤ 60 := by
  have hreplay : ((vacant 0 narrow).run convoy).toOption.any (fun result ↦
      result.2.inTransit == 48 && result.2.window == 60 && result.2.mtu == 60) = true := by
    decide +kernel
  obtain ⟨⟨events, peer⟩, hrun, hends⟩ := exists_of_any_toOption hreplay
  simp only [Bool.and_eq_true, beq_iff_eq] at hends
  obtain ⟨⟨htransit, hwindow⟩, hmtu⟩ := hends
  obtain ⟨hexact, hcomposed⟩ := Reached.accounts (Reached.vacant.run hrun) (by decide)
  rw [htransit] at hexact
  rw [htransit, hwindow, hmtu] at hcomposed
  exact ⟨events, peer, hrun, htransit, hexact.symm, hcomposed⟩

/-! ## The greatest window -/

/-- The greatest word is no window: a sum that stops there does not go beyond it. -/
theorem exceedsWindow_of_greatest (hwindow : peer.window.toNat = Word.maximum)
    (outgoing : Outgoing) : peer.exceedsWindow outgoing = false := by
  have hlimit := peer.toNat_transitLimit
  unfold exceedsWindow
  rw [Bool.and_eq_false_iff, decide_eq_false_iff_not, UInt32.not_lt, UInt32.le_iff_toNat_le,
    Word.addSat, Word.toNat_ofNatSat]
  omega

/-- A command that waits alone, fits a datagram and has room in the window enters the flight. -/
theorem fill_of_single {outgoing : Outgoing} (hacknowledgements : peer.acknowledgements = [])
    (hreliable : peer.reliable = [outgoing]) (hunreliable : peer.unreliable = [])
    (hfits : peer.draft.fits outgoing.command = true)
    (hroom : peer.exceedsWindow outgoing = false) (now : Stamp) :
    peer.fill now false = (some (peer.draft.push outgoing.command),
      { peer.awaitAcknowledgement outgoing now with reliable := [] }) := by
  have hempty : peer.draft.hasRoom = true := by
    rw [Draft.fits, Bool.and_eq_true, Bool.and_eq_true] at hfits
    exact hfits.1.1
  have hnone : peer.sendAcknowledgements peer.draft peer.acknowledgements = (peer.draft, peer) := by
    rw [hacknowledgements, sendAcknowledgements, ← hacknowledgements]
  have hgoes : peer.fillReliable peer.draft now = (peer.draft.push outgoing.command,
      { peer.awaitAcknowledgement outgoing now with reliable := [] }) := by
    rw [fillReliable, hreliable]
    simp only [List.isEmpty_cons, Bool.not_false, if_true, sendReliable, hfits, hroom,
      Bool.and_self]
  have hlast : (peer.awaitAcknowledgement outgoing now).unreliable = [] := hunreliable
  unfold fill
  rw [hnone]
  dsimp only
  rw [if_pos hempty, Bool.false_and]
  simp only [Bool.false_eq_true, if_false, hgoes, hlast, sendUnreliable]

def unlimited : Settings where
  mtu := ⟨576, 65535⟩
  defaultMtu := 65535
  window := ⟨4096, 4294967295⟩

/-- What composing makes of a draft that holds something, but for the accounts of the traffic. -/
theorem compose_of_fill {now : Stamp} {check : Bool} {draft : Draft}
    (hactive : peer.state.isActive = true) (hfill : peer.fill now check = (some draft, after))
    (hsome : draft.commands ≠ []) : ∃ meter traffic lastSend, (peer.compose now check).2 =
      { after with lossMeter := meter, traffic := traffic, lastSend := lastSend } := by
  unfold compose
  rw [hactive, hfill]
  simp only [Bool.not_true, Bool.false_eq_true, if_false, List.isEmpty_iff, hsome]
  unfold finish
  dsimp only
  split <;> exact ⟨_, _, _, rfl⟩

/-- A connection under these settings, with nothing to send that need not be acknowledged. -/
structure Unlimited (peer : Peer) : Prop where
  state : peer.state = .connected
  settings : peer.settings = unlimited
  mtu : peer.mtu = 65535
  window : peer.window = 4294967295
  channel : (peer.channel? 0).isSome = true
  acknowledgements : peer.acknowledgements = []
  unreliable : peer.unreliable = []

/-- So many packets that each fill a datagram are in flight, and none waits. What counts their
payload is a word. -/
structure Laden (count : Nat) (peer : Peer) : Prop extends Unlimited peer where
  reliable : peer.reliable = []
  flight : peer.flight = count * 65491
  inTransit : peer.inTransit.toNat = count * 65491 % 4294967296

variable {count : Nat}

/-- A packet that fills a datagram is queued whole. -/
theorem Laden.send {packet : Packet} (h : Laden count peer) (hreliable : packet.isReliable = true)
    (hsize : packet.size = 65491) : ∃ queued outgoing, peer.send 0 packet = .ok queued ∧
      Unlimited queued ∧ queued.reliable = [outgoing] ∧
      outgoing.command.body.payloadLength = 65491 ∧ outgoing.command.encodedLength = 65503 ∧
      queued.sent = peer.sent ∧ queued.inTransit = peer.inTransit := by
  obtain ⟨value, hvalue⟩ := Option.isSome_iff_exists.mp h.channel
  have hlength : peer.fragmentLength = 65491 := by
    rw [fragmentLength, h.settings, h.mtu]
    rfl
  have hwhole : wholeCommand 0 packet =
      .unnumbered (.sendReliable packet.payload) 0 Command.acknowledgeFlag := by
    rw [wholeCommand, if_pos hreliable]
  have hsend : peer.send 0 packet = .ok (peer.queueCommand (wholeCommand 0 packet)) := by
    unfold Peer.send
    rw [if_neg (not_not_intro h.state), hvalue, hlength, hsize, h.settings]
    dsimp only
    rw [if_neg (by decide), if_neg (by decide)]
  have hopen (next : Channel) :
      (peer.channels.set (0 : UInt8).toNat next)[(0 : UInt8).toNat]?.isSome = true := by
    rw [List.getElem?_set_self (List.getElem?_eq_some_iff.mp hvalue).1, Option.isSome_some]
  rw [hwhole, queueCommand_reliable (by decide) hvalue, h.reliable, List.nil_append] at hsend
  refine ⟨_, _, hsend, ⟨h.state, h.settings, h.mtu, h.window, hopen _, h.acknowledgements,
    h.unreliable⟩, rfl, hsize, ?_, rfl, rfl⟩
  exact congrArg (12 + ·) hsize

/-- The packet is sent, since it fits a datagram and nothing exceeds the window. -/
theorem Unlimited.compose {outgoing : Outgoing} (h : Unlimited peer)
    (hreliable : peer.reliable = [outgoing])
    (hpayload : outgoing.command.body.payloadLength = 65491)
    (hencoded : outgoing.command.encodedLength = 65503) (hflight : peer.flight = count * 65491)
    (htransit : peer.inTransit.toNat = count * 65491 % 4294967296) :
    Laden (count + 1) (peer.compose 1000 false).2 := by
  have hfits : peer.draft.fits outgoing.command = true := by
    simp only [Draft.fits, Draft.hasRoom, draft, hencoded, h.settings, h.mtu]
    decide
  have hwindow : peer.window.toNat = Word.maximum := by
    rw [h.window]
    rfl
  have hactive : peer.state.isActive = true := by
    rw [h.state]
    rfl
  obtain ⟨_, _, _, hcomposed⟩ := compose_of_fill hactive
    (fill_of_single h.acknowledgements hreliable h.unreliable hfits
      (exceedsWindow_of_greatest hwindow outgoing) 1000)
    (by simp [Draft.push])
  have hadded := peer.flight_awaitAcknowledgement outgoing 1000
  have hshort : Short outgoing := by
    rw [Short, hpayload]
    decide
  have hcounted := peer.inTransit_awaitAcknowledgement hshort 1000
  rw [hcomposed]
  refine ⟨⟨h.state, h.settings, h.mtu, h.window, h.channel, h.acknowledgements, h.unreliable⟩, rfl,
    hadded.trans ?_, hcounted.trans ?_⟩ <;> rw [hpayload] <;> omega

def overture : List Action :=
  let context : Context := ⟨1000, 0, 0⟩
  [.connect ⟨"10.0.0.1", 4000⟩ 1 7 context,
    .handle ⟨0, 0, 1, 1000, 7⟩ ⟨controlChannel, Command.acknowledgeFlag, 1,
      .verifyConnect ⟨3, 65535, 4294967295, 1, 0, 0, Settings.throttle {}⟩⟩ context,
    .compose 1000 false]

theorem exists_laden (count : Nat) : ∃ peer, Reached 0 unlimited peer ∧ Laden count peer := by
  induction count with
  | zero =>
    have hreplay : ((vacant 0 unlimited).run overture).toOption.any (fun result ↦
        result.2.state == .connected && result.2.settings == unlimited && result.2.mtu == 65535 &&
          result.2.window == 4294967295 && (result.2.channel? 0).isSome &&
          result.2.acknowledgements == [] && result.2.reliable == [] &&
          result.2.unreliable == [] && result.2.sent == [] && result.2.inTransit == 0) = true := by
      decide +kernel
    obtain ⟨⟨events, peer⟩, hrun, hends⟩ := exists_of_any_toOption hreplay
    simp only [Bool.and_eq_true, beq_iff_eq] at hends
    obtain ⟨⟨⟨⟨⟨⟨⟨⟨⟨hstate, hsettings⟩, hmtu⟩, hwindow⟩, hchannel⟩, hacknowledgements⟩, hreliable⟩,
      hunreliable⟩, hsent⟩, htransit⟩ := hends
    refine ⟨peer, Reached.vacant.run hrun, ⟨hstate, hsettings, hmtu, hwindow, hchannel,
      hacknowledgements, hunreliable⟩, hreliable, ?_, ?_⟩
    · rw [flight, hsent, load_nil]
    · rw [htransit]
      rfl
  | succ count ih =>
    obtain ⟨peer, hreached, hladen⟩ := ih
    have hbulk : Packet.isReliable ⟨List.replicate 65491 0, .reliable⟩ = true := by decide
    obtain ⟨queued, outgoing, hsend, hopen, hreliable, hpayload, hencoded, hsent, htransit⟩ :=
      hladen.send hbulk List.length_replicate
    have hqueued := hreached.operate (.send hsend)
    refine ⟨_, hqueued.compose 1000 false,
      hopen.compose hreliable hpayload hencoded ?_ ?_⟩
    · rw [flight, hsent]
      exact hladen.flight
    · rw [htransit]
      exact hladen.inTransit

/-- Under the greatest window the count wraps around once the payload in flight is too much for a
word. -/
theorem exists_miscounted : ∃ peer, Reached 0 unlimited peer ∧ peer.flight = 4295030762 ∧
    peer.inTransit = 63466 := by
  obtain ⟨peer, hreached, hladen⟩ := exists_laden 65582
  refine ⟨peer, hreached, hladen.flight, UInt32.toNat_inj.mp ?_⟩
  rw [hladen.inTransit]
  rfl

end Peer

end ReliableDatagram
