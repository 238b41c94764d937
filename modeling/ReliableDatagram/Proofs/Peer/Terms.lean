import ReliableDatagram.Peer.Submission
import ReliableDatagram.Proofs.Peer.Reception

/-!
# The terms of a connection

The terms of a connection are what its two ends settle in the handshake, together with the
slots that they give it. Queueing, sending and delivering leave them as they are. A received
command changes them only where it grants the connection, announces bandwidth, configures the
throttle or ends the connection.
-/

namespace ReliableDatagram

/-- What the ends of a connection have settled, as one of them sees it. -/
structure Terms where
  id : UInt16
  remoteId : UInt16
  challenge : UInt32
  channelCount : Nat
  mtu : UInt16
  window : UInt32
  /-- The bandwidth at which the other end can receive. -/
  incomingBandwidth : UInt32
  /-- The bandwidth at which the other end can send. -/
  outgoingBandwidth : UInt32
  throttle : ThrottleParameters
  settings : Settings
deriving DecidableEq

def Command.configures (command : Command) : Bool :=
  match command.tag with
  | .bandwidthLimit | .throttleConfigure => true
  | _ => false

theorem Command.tag_of_not_configures {command : Command} (h : command.configures = false) :
    command.tag ≠ .bandwidthLimit ∧ command.tag ≠ .throttleConfigure := by
  unfold configures at h
  constructor <;>
  · intro htag
    rw [htag] at h
    cases h

theorem Pacing.parameters_recordRoundTrip (pacing : Pacing) (now : Stamp) (sample : UInt32) :
    (pacing.recordRoundTrip now sample).parameters = pacing.parameters := by
  obtain ⟨_, _, _, _, _, hrecorded⟩ := pacing.recordRoundTrip_eq now sample
  rw [hrecorded]

namespace Peer

def terms (peer : Peer) : Terms where
  id := peer.id
  remoteId := peer.remoteId
  challenge := peer.challenge
  channelCount := peer.channels.length
  mtu := peer.mtu
  window := peer.window
  incomingBandwidth := peer.incomingBandwidth
  outgoingBandwidth := peer.outgoingBandwidth
  throttle := peer.pacing.parameters
  settings := peer.settings

variable {peer after : Peer} {command : Command} {context : Context}

/-! ## Queueing -/

@[simp] theorem terms_setChannel (peer : Peer) (channel : UInt8) (value : Channel) :
    (peer.setChannel channel value).terms = peer.terms := by
  simp [terms, setChannel]

@[simp] theorem terms_clearQueues (peer : Peer) : peer.clearQueues.terms = peer.terms := by
  simp [terms, clearQueues]

@[simp] theorem terms_queueAcknowledgement (peer : Peer) (command : Command) (sentTime : Stamp) :
    (peer.queueAcknowledgement command sentTime).terms = peer.terms := by
  obtain ⟨_, _, heq, -⟩ := peer.queueAcknowledgement_eq command sentTime
  rw [heq]
  rfl

theorem Enqueues.terms (h : Enqueues peer after) : after.terms = peer.terms := by
  rw [h.frame]
  simp only [Peer.terms, h.channels]

@[simp] theorem terms_queueCommand (peer : Peer) (command : Command) :
    (peer.queueCommand command).terms = peer.terms := (peer.queueCommand_enqueues command).terms

@[simp] theorem terms_queueControl (peer : Peer) (body : Body) :
    (peer.queueControl body).terms = peer.terms := (peer.queueControl_enqueues body).terms

/-! ## Submitting and leaving -/

theorem terms_send {channel : UInt8} {packet : Packet}
    (h : peer.send channel packet = .ok after) : after.terms = peer.terms := (send_enqueues h).terms

theorem Leaves.terms (h : Leaves peer after) : after.terms = peer.terms := by
  unfold Peer.terms
  rw [h.channels, h.frame]

/-! ## Delivering -/

theorem length_receiveFrom (first : Nat) (channels : List Channel) :
    (receiveFrom first channels).2.length = channels.length := by
  induction channels generalizing first with
  | nil => rfl
  | cons channel rest ih =>
    unfold receiveFrom
    split
    · rfl
    · simp [ih]

theorem terms_receiveAny (peer : Peer) : peer.receiveAny.2.terms = peer.terms := by
  simp [terms, receiveAny, length_receiveFrom]

theorem terms_receive (peer : Peer) (channel : UInt8) :
    (peer.receive channel).2.terms = peer.terms := by
  unfold receive
  split
  · rfl
  · exact peer.terms_setChannel ..

/-! ## Composing -/

theorem terms_sendAcknowledgements (peer : Peer) (draft : Draft)
    (waiting : List Acknowledgement) :
    (peer.sendAcknowledgements draft waiting).2.terms = peer.terms := by
  obtain ⟨_, _, _, -, -, -, hafter⟩ := peer.sendAcknowledgements_eq draft waiting
  rw [hafter]
  rfl

theorem terms_sendReliable (peer : Peer) (draft : Draft) (now : Stamp) (queue : List Outgoing) :
    (peer.sendReliable draft now queue).2.terms = peer.terms := by
  obtain ⟨_, _, -, -, _, _, _, hafter⟩ := peer.sendReliable_eq draft now queue
  rw [hafter]
  rfl

theorem terms_sendUnreliable (peer : Peer) (draft : Draft) (queue : List Outgoing) :
    (peer.sendUnreliable draft queue).2.terms = peer.terms := by
  induction queue generalizing peer draft with
  | nil => rfl
  | cons outgoing rest ih =>
    unfold sendUnreliable
    split
    · split
      · dsimp only
        split <;> exact ih ..
      · exact ih ..
    · rfl

theorem terms_checkTimeouts {now : Stamp} (h : peer.checkTimeouts now = (false, after)) :
    after.terms = peer.terms := by
  obtain ⟨_, _, _, _, rfl⟩ := checkTimeouts_eq h
  rfl

theorem terms_ping (peer : Peer) : peer.ping.terms = peer.terms := peer.ping_enqueues.terms

theorem terms_fillReliable (peer : Peer) (draft : Draft) (now : Stamp) :
    (peer.fillReliable draft now).2.terms = peer.terms := by
  unfold fillReliable
  split
  · exact peer.terms_sendReliable ..
  · split
    · rw [terms_sendReliable, terms_ping]
    · rfl

theorem terms_fill {now : Stamp} {check : Bool} {draft : Draft}
    (h : peer.fill now check = (some draft, after)) : after.terms = peer.terms :=
  fill_induction (fun _ peer _ after ↦ after.terms = peer.terms) (fun hbefore hafter ↦
    hafter.trans hbefore) (fun _ _ ↦ terms_sendAcknowledgements ..) terms_checkTimeouts
    (fun _ _ ↦ terms_fillReliable ..) (fun _ _ ↦ terms_sendUnreliable ..) h

/-- Composing leaves the terms as they are unless the connection is given up. -/
theorem terms_compose (peer : Peer) (now : Stamp) (check : Bool)
    (h : (peer.compose now check).1 ≠ .ok .timedOut) :
    (peer.compose now check).2.terms = peer.terms := by
  have hyields := peer.compose_yields now check
  generalize peer.compose now check = composed at h hyields
  obtain ⟨result, last⟩ := composed
  cases hyields with
  | idle => rfl
  | gaveUp => exact absurd rfl h
  | nothing _ hfill | failed _ hfill | datagram _ hfill =>
    have hterms := terms_fill hfill
    exact hterms

/-! ## Handling -/

/-- What handling a command can do to the state and the terms of a connection, and what it
reports. -/
inductive Reacts (peer : Peer) (command : Command) (context : Context) :
    Option PeerEvent → Peer → Prop where
  | same {after : Peer} (hplain : command.configures = false)
      (hwaits : command.tag = .verifyConnect → peer.state ≠ .connecting)
      (hstate : after.state = peer.state) (hterms : after.terms = peer.terms) :
      Reacts peer command context none after
  /-- The initiator has confirmed the connection. -/
  | confirmed {after : Peer} {grant : Command} {sentTime : Stamp}
      (hbefore : peer.state = .acknowledgingConnect) (hgrant : grant ∈ peer.outstanding)
      (htag : grant.tag = .verifyConnect) (hchannel : grant.channel = command.channel)
      (hbody : command.body = .acknowledge grant.sequence sentTime)
      (hstate : after.state = .connected) (hterms : after.terms = peer.terms) :
      Reacts peer command context (some .connected) after
  | granted {after : Peer} {answer : Handshake} {mtu : UInt16} {window : UInt32}
      (hbefore : peer.state = .connecting) (hbody : command.body = .verifyConnect answer)
      (hagrees : peer.agreesWith answer = true) (hmtu : peer.settings.clampMtu answer.mtu = .ok mtu)
      (hwindow : peer.settings.clampWindow answer.window = .ok window)
      (hstate : after.state = .connected)
      (hterms : after.terms = { peer.terms with
        remoteId := answer.peer
        mtu := min mtu peer.mtu
        window := min window peer.window
        incomingBandwidth := answer.incomingBandwidth
        outgoingBandwidth := answer.outgoingBandwidth }) :
      Reacts peer command context (some .connected) after
  /-- The connection is over, or the other end leaves it. -/
  | ended {event : Option PeerEvent} {after : Peer} (hevent : event ≠ some .connected)
      (hstate : after.state.isActive = false ∨
        peer.state = .connected ∧ after.state = .acknowledgingDisconnect)
      (hid : after.id = peer.id) (hsettings : after.settings = peer.settings)
      (hkept : after.state.isActive = true → after.terms = peer.terms) :
      Reacts peer command context event after
  | limited {after : Peer} {incoming outgoing window : UInt32}
      (hbody : command.body = .bandwidthLimit incoming outgoing)
      (hwindow : peer.settings.peerWindow incoming context.outgoingBandwidth = .ok window)
      (hstate : after.state = peer.state)
      (hterms : after.terms = { peer.terms with
        incomingBandwidth := incoming
        outgoingBandwidth := outgoing
        window := window }) :
      Reacts peer command context none after
  | throttled {after : Peer} {parameters : ThrottleParameters}
      (hbody : command.body = .throttleConfigure parameters) (hstate : after.state = peer.state)
      (hterms : after.terms = { peer.terms with throttle := parameters }) :
      Reacts peer command context none after

/-- Only the state and the terms matter. -/
theorem Reacts.congr {event : Option PeerEvent} {middle : Peer}
    (h : Reacts peer command context event middle) (hstate : after.state = middle.state)
    (hterms : after.terms = middle.terms) : Reacts peer command context event after := by
  have hid : after.id = middle.id := congrArg Terms.id hterms
  have hsettings : after.settings = middle.settings := congrArg Terms.settings hterms
  cases h with
  | same hplain hwaits hsame heq =>
    exact .same hplain hwaits (hstate.trans hsame) (hterms.trans heq)
  | confirmed hbefore hgrant htag hchannel hbody hsame heq =>
    exact .confirmed hbefore hgrant htag hchannel hbody (hstate.trans hsame) (hterms.trans heq)
  | granted hbefore hbody hagrees hmtu hwindow hsame heq =>
    exact .granted hbefore hbody hagrees hmtu hwindow (hstate.trans hsame) (hterms.trans heq)
  | ended hevent hover hsame heq hkept =>
    exact .ended hevent (hstate ▸ hover) (hid.trans hsame) (hsettings.trans heq)
      fun hactive ↦ hterms.trans (hkept (hstate ▸ hactive))
  | limited hbody hwindow hsame heq =>
    exact .limited hbody hwindow (hstate.trans hsame) (hterms.trans heq)
  | throttled hbody hsame heq => exact .throttled hbody (hstate.trans hsame) (hterms.trans heq)

theorem terms_removeSent (peer : Peer) (sequence : UInt32) (channel : UInt8) :
    (peer.removeSent sequence channel).2.terms = peer.terms ∧
      (peer.removeSent sequence channel).2.state = peer.state := by
  obtain ⟨_, _, _, _, hremoved, -⟩ := peer.removeSent_eq sequence channel
  rw [hremoved]
  exact ⟨rfl, rfl⟩

/-- What an acknowledgement takes out was outstanding under the number that it names. -/
theorem exists_of_removeSent {sequence : UInt32} {channel : UInt8} {tag : Tag}
    (h : (peer.removeSent sequence channel).1 = some tag) :
    ∃ other ∈ peer.outstanding, other.tag = tag ∧ other.sequence = sequence ∧
      other.channel = channel := by
  unfold removeSent at h
  split at h
  · rename_i outgoing hfound
    cases h
    have hnamed := List.find?_some hfound
    refine ⟨outgoing.command, mem_outstanding.mpr (.inl ?_), rfl, eq_of_isNamed hnamed⟩
    exact List.mem_map_of_mem (List.mem_of_find?_eq_some hfound)
  · dsimp only at h
    split at h
    · rename_i outgoing hfound
      cases h
      have hnamed := List.find?_some hfound
      rw [Bool.and_eq_true] at hnamed
      refine ⟨outgoing.command, mem_outstanding.mpr (.inr ?_), rfl, eq_of_isNamed hnamed.2⟩
      exact List.mem_map_of_mem (List.mem_of_find?_eq_some hfound)
    · cases h

theorem terms_heard (peer : Peer) (sentTime : Stamp) (context : Context) :
    (peer.heard sentTime context).terms = peer.terms := by
  simp [heard, terms, Pacing.parameters_recordRoundTrip]

theorem TakesAcknowledgement.reacts {sequence : UInt32} {sentTime : Stamp}
    {event : Option PeerEvent}
    (h : peer.TakesAcknowledgement command.channel sequence sentTime context event after)
    (hbody : command.body = .acknowledge sequence sentTime) :
    Reacts peer command context event after := by
  have hplain : command.configures = false := by
    rw [Command.configures, Command.tag_of_body hbody]
    rfl
  have hwaits : command.tag = .verifyConnect → peer.state ≠ .connecting := by
    rw [Command.tag_of_body hbody]
    intro h
    cases h
  obtain ⟨hremoved, -⟩ := (peer.heard sentTime context).terms_removeSent sequence command.channel
  have hterms := hremoved.trans (peer.terms_heard sentTime context)
  cases h with
  | early => exact .same hplain hwaits rfl rfl
  | confirmed _ hstate hgrant =>
    obtain ⟨grant, hmem, hkind, rfl, hchannel⟩ := exists_of_removeSent hgrant
    exact .confirmed hstate hmem hkind hchannel hbody rfl hterms
  | departed => exact .ended (by simp) (.inl rfl) rfl rfl nofun
  | noted => exact .same hplain hwaits (peer.removeSent_heard_state ..) hterms

theorem terms_removeConnect (peer : Peer) : peer.removeConnect.terms = peer.terms ∧
    peer.removeConnect.mtu = peer.mtu ∧ peer.removeConnect.window = peer.window := by
  obtain ⟨_, _, _, _, hremoved⟩ := peer.removeConnect_eq
  rw [hremoved]
  exact ⟨rfl, rfl, rfl⟩

theorem TakesGrant.reacts {answer : Handshake} {handled : Handled}
    (h : peer.TakesGrant answer handled) (hbody : command.body = .verifyConnect answer) :
    Reacts peer command context handled.event handled.peer := by
  cases h with
  | unasked hstate =>
    exact .same (by rw [Command.configures, Command.tag_of_body hbody]; rfl) (fun _ ↦ hstate)
      rfl rfl
  | refused => exact .ended (by simp) (.inl rfl) rfl rfl nofun
  | granted hconnecting hagrees hmtu hwindow =>
    obtain ⟨hterms, hsize, hflight⟩ := peer.terms_removeConnect
    refine .granted hconnecting hbody hagrees hmtu hwindow rfl ?_
    rw [← hterms, ← hsize, ← hflight]
    rfl

theorem handleDisconnect_reacts (hbody : command.body = .disconnect) (confirm : Bool) :
    Reacts peer command context none (peer.handleDisconnect confirm) := by
  have hsame : Reacts peer command context none peer := by
    refine .same (by rw [Command.configures, Command.tag_of_body hbody]; rfl) ?_ rfl rfl
    rw [Command.tag_of_body hbody]
    intro h
    cases h
  unfold handleDisconnect
  split
  · exact hsame
  · exact hsame
  · exact .ended (by simp) (.inl rfl) rfl rfl nofun
  · rename_i hstate
    cases confirm with
    | true =>
      exact .ended (by simp) (.inr ⟨hstate, rfl⟩) rfl rfl fun _ ↦ peer.terms_clearQueues
    | false => exact .ended (by simp) (.inl rfl) rfl rfl nofun
  · exact .ended (by simp) (.inl rfl) rfl rfl nofun

theorem perform_reacts {handled : Handled} (h : peer.perform command context = .ok handled) :
    Reacts peer command context handled.event handled.peer := by
  have hplain {after : Peer}
      (hnot : command.tag ≠ .bandwidthLimit ∧ command.tag ≠ .throttleConfigure)
      (hother : command.tag ≠ .verifyConnect) (hstate : after.state = peer.state)
      (hterms : after.terms = peer.terms) : Reacts peer command context none after := by
    refine .same ?_ (fun hverify ↦ absurd hverify hother) hstate hterms
    unfold Command.configures
    split <;> simp_all
  have hdata {after : Peer} (hpayload : command.tag.carriesPayload = true)
      (hstate : after.state = peer.state) (hterms : after.terms = peer.terms) :
      Reacts peer command context none after := by
    refine hplain ⟨?_, ?_⟩ ?_ hstate hterms <;>
    · intro htag
      rw [htag] at hpayload
      cases hpayload
  cases obeys_of_perform h with
  | nothing htag =>
    rcases htag with htag | htag | htag <;>
      exact hplain (by simp [htag]) (by simp [htag]) rfl rfl
  | acknowledged hbody htakes => exact htakes.reacts hbody
  | answered hbody hgrant => exact hgrant.reacts hbody
  | left hbody => exact handleDisconnect_reacts hbody _
  | taken _ htakes => exact hdata htakes.carriesPayload rfl (terms_setChannel ..)
  | refused hpayload => exact hdata hpayload rfl rfl
  | limited hbody hwindow => exact .limited hbody hwindow rfl rfl
  | throttled hbody => exact .throttled hbody rfl rfl

theorem handle_reacts {header : Header} {event : Option PeerEvent}
    (h : peer.handle header command context = .ok (event, after)) :
    Reacts peer command context event after := by
  obtain ⟨handled, hperform, rfl, rfl | ⟨-, -, rfl⟩⟩ := handle_eq_ok h
  · exact perform_reacts hperform
  · obtain ⟨_, _, heq, -⟩ := handled.peer.queueAcknowledgement_eq command header.sentTime
    rw [heq]
    exact (perform_reacts hperform).congr rfl rfl

end Peer

end ReliableDatagram
