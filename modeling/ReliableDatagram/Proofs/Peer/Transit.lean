import ReliableDatagram.Proofs.Peer.Bounds
import ReliableDatagram.Proofs.Peer.Budget
import ReliableDatagram.Proofs.Peer.Naming

/-!
# What enters and leaves the flight

A peer counts the payload of its commands that were sent and not acknowledged. The count goes
up where a command is sent, and down where one is acknowledged or overdue. What goes down is
always the payload of the commands that leave the flight. What goes up is added to a word that
wraps around, and the window is what keeps it from doing so: its check is made with a sum that
stops at the greatest word, and so says nothing when the window is that word itself.
-/

namespace ReliableDatagram

@[simp] theorem Word.toNat_subSat (a b : Word) : (subSat a b).toNat = a.toNat - b.toNat := by
  have h := a.toNat_lt
  rw [subSat, toNat_ofNatSat, maximum]
  omega

namespace Peer

def load (queue : List Outgoing) : Nat := (queue.map (·.command.body.payloadLength)).sum

def flight (peer : Peer) : Nat := load peer.sent

@[simp] theorem load_nil : load [] = 0 := rfl

@[simp] theorem load_append (first rest : List Outgoing) :
    load (first ++ rest) = load first + load rest := by
  rw [load, List.map_append, List.sum_append, load, load]

@[simp] theorem load_cons (outgoing : Outgoing) (rest : List Outgoing) :
    load (outgoing :: rest) = outgoing.command.body.payloadLength + load rest := by
  rw [load, List.map_cons, List.sum_cons, load]

theorem load_perm {first rest : List Outgoing} (h : first.Perm rest) : load first = load rest :=
  (h.map _).sum_nat

/-- The payload of every command that is in flight fits a datagram, so that it is counted as
what it is. -/
def Short (outgoing : Outgoing) : Prop := outgoing.command.body.payloadLength < 65536

theorem toNat_payloadLength {outgoing : Outgoing} (h : Short outgoing) :
    outgoing.payloadLength.toNat = outgoing.command.body.payloadLength := by
  apply UInt32.toNat_ofNat_of_lt'
  rw [Short] at h
  rw [UInt32.size]
  omega

variable {peer middle after : Peer}

/-! ## What leaves the flight -/

/-- Commands leave the flight, and so does their payload from the count. -/
structure Frees (peer after : Peer) : Prop where
  sent : after.sent ⊆ peer.sent
  count : ∃ freed, peer.flight = freed + after.flight ∧
    after.inTransit.toNat = peer.inTransit.toNat - freed

/-- A peer that does not touch its flight. -/
theorem Frees.of_eq (hsent : after.sent = peer.sent) (htransit : after.inTransit = peer.inTransit) :
    Frees peer after where
  sent := by
    rw [hsent]
    exact List.Subset.refl _
  count := ⟨0, by rw [flight, flight, hsent, Nat.zero_add], by rw [htransit, Nat.sub_zero]⟩

theorem Frees.refl (peer : Peer) : Frees peer peer := .of_eq rfl rfl

theorem Frees.trans (h : Frees peer middle) (hmore : Frees middle after) : Frees peer after where
  sent := List.Subset.trans hmore.sent h.sent
  count := by
    obtain ⟨first, hfirst, htransit⟩ := h.count
    obtain ⟨rest, hrest, hlater⟩ := hmore.count
    exact ⟨first + rest, by omega, by omega⟩

theorem removeSent_frees (hshort : ∀ outgoing ∈ peer.sent, Short outgoing) (sequence : UInt32)
    (channel : UInt8) : Frees peer (peer.removeSent sequence channel).2 := by
  unfold removeSent
  split
  · rename_i outgoing hfound
    obtain ⟨_, hrefreshed⟩ := refreshTimeout_eq _
    have hlength := toNat_payloadLength (hshort outgoing (List.mem_of_find?_eq_some hfound))
    rw [hrefreshed]
    refine ⟨List.eraseP_subset, outgoing.command.body.payloadLength, ?_, ?_⟩
    · rw [flight, load_perm (perm_cons_eraseP hfound), load_cons, flight]
    · rw [Word.toNat_subSat, hlength]
  · dsimp only
    split <;> exact .of_eq rfl rfl

theorem removeConnect_frees (hshort : ∀ outgoing ∈ peer.sent, Short outgoing) :
    Frees peer peer.removeConnect := by
  have hfilter (other : Peer) : Frees other
      { other with reliable := other.reliable.filter (·.command.tag != .connect) } :=
    .of_eq rfl rfl
  unfold removeConnect
  split
  · exact (removeSent_frees hshort _ controlChannel).trans (hfilter _)
  · exact hfilter peer

/-- The count goes down by the length that is kept of the payload of each of some commands. -/
theorem toNat_foldl_subSat_payloadLength (queue : List Outgoing) (count : UInt32) :
    (queue.foldl (fun total outgoing ↦ Word.subSat total outgoing.payloadLength) count).toNat =
      count.toNat - (queue.map (·.payloadLength.toNat)).sum := by
  induction queue generalizing count with
  | nil => rfl
  | cons outgoing rest ih =>
    rw [List.foldl_cons, ih, Word.toNat_subSat, List.map_cons, List.sum_cons, Nat.sub_sub]

/-- The count goes down by the payload of each of some commands. -/
theorem toNat_foldl_subSat (queue : List Outgoing) (hshort : ∀ outgoing ∈ queue, Short outgoing)
    (count : UInt32) :
    (queue.foldl (fun total outgoing ↦ Word.subSat total outgoing.payloadLength) count).toNat =
      count.toNat - load queue := by
  have hlengths : queue.map (·.payloadLength.toNat) = queue.map (·.command.body.payloadLength) :=
    List.map_congr_left fun outgoing hmem ↦ toNat_payloadLength (hshort outgoing hmem)
  rw [toNat_foldl_subSat_payloadLength, hlengths, load]

theorem checkTimeouts_frees (hshort : ∀ outgoing ∈ peer.sent, Short outgoing) {now : Stamp}
    (h : peer.checkTimeouts now = (false, after)) : Frees peer after := by
  rw [checkTimeouts_eq_ite] at h
  split at h
  · cases h
  · obtain ⟨_, hrefreshed⟩ := refreshTimeout_eq _
    rw [hrefreshed] at h
    cases h
    have hsplit := load_perm (List.filter_append_perm (·.isOverdue now) peer.sent)
    refine ⟨List.filter_subset_self _, load (peer.sent.filter (·.isOverdue now)), ?_, ?_⟩
    · rw [flight, ← hsplit, load_append, flight]
    · exact toNat_foldl_subSat _ (fun outgoing hmem ↦ hshort outgoing (List.mem_filter.mp hmem).1) _

/-! ## Queueing and handling -/

theorem Enqueues.frees (h : Enqueues peer after) : Frees peer after :=
  .of_eq (by rw [h.frame]) (by rw [h.frame])

theorem receive_frees (peer : Peer) (channel : UInt8) : Frees peer (peer.receive channel).2 := by
  unfold receive
  split <;> exact .of_eq rfl rfl

/-- Commands leave the flight, or nothing is in flight any more. -/
inductive Settles (peer after : Peer) : Prop where
  | frees (h : Frees peer after) : Settles peer after
  /-- All of it is forgotten. -/
  | clears (hsent : after.sent = []) (htransit : after.inTransit = 0) : Settles peer after

theorem Settles.then_frees (h : Settles peer middle) (hmore : Frees middle after) :
    Settles peer after := by
  cases h with
  | frees h => exact .frees (h.trans hmore)
  | clears hsent htransit =>
    obtain ⟨freed, -, hcount⟩ := hmore.count
    refine .clears (List.eq_nil_of_subset_nil (hsent ▸ hmore.sent)) ?_
    rw [htransit, UInt32.toNat_zero, Nat.zero_sub] at hcount
    exact UInt32.toNat_inj.mp hcount

/-- All that waits is forgotten, and the other end is told so. -/
theorem farewell_settles (peer : Peer) : Settles peer (peer.clearQueues.queueCommand
    (.unnumbered .disconnect controlChannel Command.unsequencedFlag)) := by
  have hcleared : Settles peer peer.clearQueues := .clears rfl rfl
  exact hcleared.then_frees (queueCommand_enqueues ..).frees

theorem disconnect_settles (peer : Peer) : Settles peer peer.disconnect.2 := by
  have hcleared : Settles peer peer.clearQueues := .clears rfl rfl
  have hasked := hcleared.then_frees (peer.clearQueues.queueControl_enqueues .disconnect).frees
  unfold disconnect
  split
  · exact .frees (.refl peer)
  · split
    · exact hasked.then_frees (.of_eq rfl rfl)
    · exact peer.farewell_settles

theorem disconnectNow_settles (peer : Peer) : Settles peer peer.disconnectNow.2 := by
  unfold disconnectNow
  split
  · exact .frees (.refl peer)
  · exact peer.farewell_settles

theorem handleDisconnect_settles (peer : Peer) (confirm : Bool) :
    Settles peer (peer.handleDisconnect confirm) := by
  unfold handleDisconnect
  split
  · exact .frees (.refl peer)
  · exact .frees (.refl peer)
  all_goals exact .clears rfl rfl

theorem connect_settles {address : Address} {channelCount : Nat} {challenge : UInt32}
    {context : Context} (h : peer.connect address channelCount challenge context = .ok after) :
    Settles peer after := by
  obtain ⟨count, window, -, -, rfl⟩ := connect_eq h
  have hasked : Settles peer (peer.asking address count challenge window context) :=
    .clears rfl rfl
  exact hasked.then_frees (queueCommand_enqueues ..).frees

theorem queueAcknowledgement_frees (peer : Peer) (command : Command) (sentTime : Stamp) :
    Frees peer (peer.queueAcknowledgement command sentTime) := by
  obtain ⟨_, _, heq, -⟩ := peer.queueAcknowledgement_eq command sentTime
  rw [heq]
  exact .of_eq rfl rfl

theorem accept_settles {address : Address} {header : Header} {command : Command}
    {offer : Handshake} {context : Context}
    (h : peer.accept address header command offer context = .ok after) : Settles peer after := by
  obtain ⟨mtu, window, answered, -, -, -, rfl⟩ := accept_eq h
  have hgranted : Settles peer (peer.granting address header offer mtu window context) :=
    .clears rfl rfl
  exact (hgranted.then_frees (queueCommand_enqueues ..).frees).then_frees
    (queueAcknowledgement_frees ..)

theorem TakesAcknowledgement.settles {channel : UInt8} {sequence : UInt32} {sentTime : Stamp}
    {context : Context} {event : Option PeerEvent}
    (h : peer.TakesAcknowledgement channel sequence sentTime context event after)
    (hshort : ∀ outgoing ∈ peer.sent, Short outgoing) : Settles peer after := by
  have hheard : Frees peer (peer.heard sentTime context) := .of_eq rfl rfl
  have hawaited : ∀ outgoing ∈ (peer.heard sentTime context).sent, Short outgoing := hshort
  have hremoved := hheard.trans (removeSent_frees hawaited sequence channel)
  cases h with
  | early => exact .frees (.refl peer)
  | confirmed => exact .frees (hremoved.trans (.of_eq rfl rfl))
  | departed => exact .clears rfl rfl
  | noted => exact .frees hremoved

theorem TakesGrant.frees {answer : Handshake} {handled : Handled}
    (h : peer.TakesGrant answer handled) (hshort : ∀ outgoing ∈ peer.sent, Short outgoing) :
    Frees peer handled.peer := by
  cases h with
  | unasked => exact .refl peer
  | refused => exact .of_eq rfl rfl
  | granted => exact (removeConnect_frees hshort).trans (.of_eq rfl rfl)

theorem perform_settles {command : Command} {context : Context} {handled : Handled}
    (hshort : ∀ outgoing ∈ peer.sent, Short outgoing)
    (h : peer.perform command context = .ok handled) : Settles peer handled.peer := by
  cases obeys_of_perform h with
  | nothing | refused => exact .frees (.refl peer)
  | acknowledged _ htakes => exact htakes.settles hshort
  | answered _ hgrant => exact .frees (hgrant.frees hshort)
  | left => exact peer.handleDisconnect_settles _
  | taken | limited | throttled => exact .frees (.of_eq rfl rfl)

theorem handle_settles {header : Header} {command : Command} {context : Context}
    {event : Option PeerEvent} (hshort : ∀ outgoing ∈ peer.sent, Short outgoing)
    (h : peer.handle header command context = .ok (event, after)) : Settles peer after := by
  obtain ⟨handled, hperform, -, rfl | ⟨-, -, rfl⟩⟩ := handle_eq_ok h
  · exact perform_settles hshort hperform
  · exact (perform_settles hshort hperform).then_frees (queueAcknowledgement_frees ..)

theorem configureThrottle_frees (peer : Peer) (parameters : ThrottleParameters) :
    Frees peer (peer.configureThrottle parameters) := by
  have hconfigured : Frees peer { peer with pacing := peer.pacing.configure parameters } :=
    .of_eq rfl rfl
  exact hconfigured.trans (queueControl_enqueues _ (.throttleConfigure parameters)).frees

theorem Operates.settles (h : Operates peer after) : Settles peer after := by
  cases h with
  | send hsend => exact .frees (send_enqueues hsend).frees
  | receive channel => exact .frees (peer.receive_frees channel)
  | ping => exact .frees peer.ping_enqueues.frees
  | disconnect => exact peer.disconnect_settles
  | disconnectNow => exact peer.disconnectNow_settles
  | reset => exact .clears rfl rfl
  | receiveAny | abandon | relocate | recordReceived | setThrottleLimit | markEpochs
  | resetTotals => exact .frees (.of_eq rfl rfl)

/-! ## What enters the flight -/

/-- Commands enter the flight, and so does their payload the count, which goes beyond what it
was only as far as the window allows. No sum wraps around unless the window is the greatest
word. -/
structure Launches (peer after : Peer) : Prop where
  limit : after.transitLimit = peer.transitLimit
  short : (∀ outgoing ∈ peer.sent, Short outgoing) → ∀ outgoing ∈ after.sent, Short outgoing
  count : ∃ added, after.flight = peer.flight + added ∧
    after.inTransit.toNat ≤ peer.inTransit.toNat + added ∧
    (peer.transitLimit.toNat < Word.maximum →
      after.inTransit.toNat = peer.inTransit.toNat + added)
  bound : after.inTransit.toNat ≤ max peer.inTransit.toNat peer.transitLimit.toNat

theorem Launches.of_eq (hlimit : after.transitLimit = peer.transitLimit)
    (hsent : after.sent = peer.sent) (htransit : after.inTransit = peer.inTransit) :
    Launches peer after where
  limit := hlimit
  short hshort := by rwa [hsent]
  count := ⟨0, by rw [flight, flight, hsent, Nat.add_zero],
    by rw [htransit]; exact Nat.le_add_right _ _, fun _ ↦ by rw [htransit, Nat.add_zero]⟩
  bound := by
    rw [htransit]
    exact Nat.le_max_left _ _

theorem Launches.refl (peer : Peer) : Launches peer peer := .of_eq rfl rfl rfl

theorem Launches.trans (h : Launches peer middle) (hmore : Launches middle after) :
    Launches peer after where
  limit := hmore.limit.trans h.limit
  short hshort := hmore.short (h.short hshort)
  count := by
    obtain ⟨first, hfirst, hle, heq⟩ := h.count
    obtain ⟨rest, hrest, hlater, hsame⟩ := hmore.count
    rw [h.limit] at hsame
    refine ⟨first + rest, by omega, by omega, fun hlimit ↦ ?_⟩
    rw [hsame hlimit, heq hlimit, Nat.add_assoc]
  bound := by
    have hfirst := h.bound
    have hrest := hmore.bound
    rw [h.limit] at hrest
    omega

theorem flight_awaitAcknowledgement (peer : Peer) (outgoing : Outgoing) (now : Stamp) :
    (peer.awaitAcknowledgement outgoing now).flight =
      peer.flight + outgoing.command.body.payloadLength := by
  simp only [flight, awaitAcknowledgement, load_append, load_cons, load_nil, stamp_command,
    Nat.add_zero]

/-- The count wraps around. -/
theorem inTransit_awaitAcknowledgement (peer : Peer) {outgoing : Outgoing} (hshort : Short outgoing)
    (now : Stamp) : (peer.awaitAcknowledgement outgoing now).inTransit.toNat =
      (peer.inTransit.toNat + outgoing.command.body.payloadLength) % 4294967296 := by
  change (peer.inTransit + outgoing.payloadLength).toNat = _
  rw [UInt32.toNat_add, toNat_payloadLength hshort]

/-- A command that the window has room for is counted. -/
theorem awaitAcknowledgement_launches {outgoing : Outgoing} (hshort : Short outgoing)
    (hroom : peer.exceedsWindow outgoing = false) (now : Stamp) :
    Launches peer (peer.awaitAcknowledgement outgoing now) := by
  have hsum := peer.inTransit_awaitAcknowledgement hshort now
  have hbefore := peer.inTransit.toNat_lt
  -- Without a payload nothing is added; with one, the sum that stops keeps to the window.
  have hwithin : outgoing.command.body.payloadLength = 0 ∨
      min (peer.inTransit.toNat + outgoing.command.body.payloadLength) Word.maximum ≤
        peer.transitLimit.toNat := by
    unfold exceedsWindow at hroom
    rw [Bool.and_eq_false_iff] at hroom
    rcases hroom with hnone | hfits
    · left
      have hpayload : outgoing.command.body.payload? = none := by
        simpa [Outgoing.hasPayload, Command.hasPayload] using hnone
      rw [Body.payloadLength, hpayload]
      rfl
    · right
      rw [decide_eq_false_iff_not, UInt32.not_lt, UInt32.le_iff_toNat_le, Word.addSat,
        Word.toNat_ofNatSat, toNat_payloadLength hshort] at hfits
      exact hfits
  rw [Word.maximum] at hwithin
  refine ⟨rfl, fun hsent ↦ ?_, ?_, ?_⟩
  · intro other hother
    rcases List.mem_append.mp hother with hother | hother
    · exact hsent other hother
    · rw [Short, List.mem_singleton.mp hother, stamp_command]
      exact hshort
  · refine ⟨_, peer.flight_awaitAcknowledgement outgoing now, ?_, fun hlimit ↦ ?_⟩
    · rw [hsum]
      exact Nat.mod_le _ _
    · rw [Word.maximum] at hlimit
      omega
  · omega

/-- A command that fits a datagram is short. -/
theorem short_of_fits {draft : Draft} {outgoing : Outgoing} (hlimit : draft.sizeLimit < 65536)
    (hfits : draft.fits outgoing.command = true) : Short outgoing := by
  rw [Draft.fits, Bool.and_eq_true, decide_eq_true_iff] at hfits
  have hpayload : outgoing.command.body.payloadLength ≤ outgoing.command.encodedLength :=
    Nat.le_add_left _ _
  rw [Short]
  omega

theorem sendReliable_launches {draft : Draft} (hlimit : draft.sizeLimit < 65536) (now : Stamp)
    (queue : List Outgoing) : Launches peer (peer.sendReliable draft now queue).2 := by
  induction queue generalizing peer draft with
  | nil => exact .of_eq rfl rfl rfl
  | cons outgoing rest ih =>
    unfold sendReliable
    split
    · rename_i hgoes
      rw [Bool.and_eq_true, Bool.not_eq_true'] at hgoes
      exact (awaitAcknowledgement_launches (short_of_fits hlimit hgoes.1) hgoes.2 now).trans
        (ih hlimit)
    · exact .of_eq rfl rfl rfl

theorem transitLimit_congr (hterms : after.terms = peer.terms) :
    after.transitLimit = peer.transitLimit := by
  rw [transitLimit, transitLimit, show after.window = peer.window from congrArg Terms.window hterms,
    show after.mtu = peer.mtu from congrArg Terms.mtu hterms]

theorem fillReliable_launches {draft : Draft} (hlimit : draft.sizeLimit < 65536) (now : Stamp) :
    Launches peer (peer.fillReliable draft now).2 := by
  have hping : Launches peer peer.ping := by
    unfold ping
    split
    · rw [queueControl_eq]
      exact .of_eq rfl rfl rfl
    · exact .refl peer
  unfold fillReliable
  split
  · exact sendReliable_launches hlimit now _
  · split
    · exact hping.trans (sendReliable_launches hlimit now _)
    · exact .refl peer

theorem sendUnreliable_launches (peer : Peer) (draft : Draft) (queue : List Outgoing) :
    Launches peer (peer.sendUnreliable draft queue).2 := by
  obtain ⟨_, _, _, _, -, -, -, hafter⟩ := peer.sendUnreliable_eq draft queue
  rw [hafter]
  exact .of_eq rfl rfl rfl

/-- Filling a draft first lets the overdue commands leave the flight, and then others enter. -/
theorem fill_flight (hshort : ∀ outgoing ∈ peer.sent, Short outgoing) {now : Stamp} {check : Bool}
    {draft : Draft} (h : peer.fill now check = (some draft, after)) :
    ∃ middle, Frees peer middle ∧ middle.transitLimit = peer.transitLimit ∧
      Launches middle after := by
  have hlimit : (peer.sendAcknowledgements peer.draft peer.acknowledgements).1.sizeLimit <
      65536 := by
    rw [(peer.sendAcknowledgements_fills peer.draft peer.acknowledgements).budget.1]
    exact peer.mtu.toNat_lt
  have hterms := peer.terms_sendAcknowledgements peer.draft peer.acknowledgements
  have hsame : (peer.sendAcknowledgements peer.draft peer.acknowledgements).2.sent = peer.sent ∧
      (peer.sendAcknowledgements peer.draft peer.acknowledgements).2.inTransit =
        peer.inTransit := by
    obtain ⟨_, _, _, -, -, -, hacknowledged⟩ :=
      peer.sendAcknowledgements_eq peer.draft peer.acknowledgements
    rw [hacknowledged]
    exact ⟨rfl, rfl⟩
  have hloads := peer.fill_loads now check
  rw [h] at hloads
  generalize peer.sendAcknowledgements peer.draft peer.acknowledgements = acknowledged at *
  obtain ⟨first, waiting⟩ := acknowledged
  have hwaiting : Frees peer waiting := .of_eq hsame.1 hsame.2
  have hkept : waiting.transitLimit = peer.transitLimit := transitLimit_congr hterms
  cases hloads with
  | @roomy looked _ hlooks =>
    refine ⟨looked, ?_, ?_,
      (fillReliable_launches hlimit now).trans (sendUnreliable_launches ..)⟩
    · rcases hlooks with ⟨-, rfl⟩ | ⟨-, hlooked⟩
      · exact hwaiting
      · exact hwaiting.trans
          (checkTimeouts_frees (fun outgoing hmem ↦ hshort outgoing (hwaiting.sent hmem)) hlooked)
    · rcases hlooks with ⟨-, rfl⟩ | ⟨-, hlooked⟩
      · exact hkept
      · exact (transitLimit_congr (terms_checkTimeouts hlooked)).trans hkept
  | full => exact ⟨waiting, hwaiting, hkept, sendUnreliable_launches ..⟩

/-- Composing forgets the connection, or lets overdue commands leave the flight and then others
enter it. -/
theorem compose_flight (hshort : ∀ outgoing ∈ peer.sent, Short outgoing) (now : Stamp)
    (check : Bool) : (peer.compose now check).2 = peer.reset ∨
      ∃ middle, Frees peer middle ∧ middle.transitLimit = peer.transitLimit ∧
        Launches middle (peer.compose now check).2 := by
  have hyields := peer.compose_yields now check
  generalize peer.compose now check = composed at hyields
  obtain ⟨result, last⟩ := composed
  cases hyields with
  | idle => exact .inr ⟨_, .refl _, rfl, .refl _⟩
  | gaveUp _ hfill => exact .inl (fill_eq_none hfill).1
  | nothing _ hfill | failed _ hfill | datagram _ hfill =>
    obtain ⟨middle, hfrees, hlimit, hlaunches⟩ := fill_flight hshort hfill
    exact .inr ⟨middle, hfrees, hlimit, hlaunches.trans (.of_eq rfl rfl rfl)⟩

end Peer

end ReliableDatagram
