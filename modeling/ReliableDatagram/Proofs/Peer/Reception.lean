import ReliableDatagram.Peer.Reception
import ReliableDatagram.Proofs.Peer.Composition

/-!
# How a connection begins and what handling a command does

A connection begins anew, with nothing in the queues but the request for it or its grant. As
long as it is under way, a received command changes a peer in few respects. Data goes to its
channel and nowhere else; an acknowledgement takes the command that it names out of the queues;
the grant of a connection takes the request for it out. What is to be acknowledged is exactly
what was accepted, and accepted data has gone to its channel.
-/

namespace ReliableDatagram

/-- The connection has been asked for and has not begun to leave or ended. -/
def PeerState.isUnderWay (state : PeerState) : Bool := state.isHandshaking || state.isConnected

theorem Command.tag_of_body {command : Command} {body : Body} (h : command.body = body) :
    command.tag = body.tag := congrArg Body.tag h

/-- What a channel becomes when it takes in the data of a command. -/
inductive Channel.Takes (channel : Channel) (command : Command) : Channel → Prop where
  | reliable {payload : Bytes} (hbody : command.body = .sendReliable payload) :
      Takes channel command
        (channel.queueReliable ⟨command.sequence, 0, .packet ⟨payload, .reliable⟩⟩).2
  | fragment {fragment : Fragment} (hbody : command.body = .sendFragment fragment) :
      Takes channel command (channel.addFragment fragment)
  | unreliable {sequence : UInt32} {payload : Bytes}
      (hbody : command.body = .sendUnreliable sequence payload) :
      Takes channel command
        (channel.queueUnreliable ⟨command.sequence, sequence, .packet ⟨payload, .plain⟩⟩).2
  | unsequenced {group : UInt32} {payload : Bytes}
      (hbody : command.body = .sendUnsequenced group payload) :
      Takes channel command
        (channel.queueUnsequenced ⟨0, 0, .packet ⟨payload, .unsequenced⟩⟩)
  /-- An unsequenced packet that was seen before. -/
  | repeated {group : UInt32} {payload : Bytes}
      (hbody : command.body = .sendUnsequenced group payload) : Takes channel command channel

/-- Only commands with a payload bring data. -/
theorem Channel.Takes.carriesPayload {channel taken : Channel} {command : Command}
    (h : channel.Takes command taken) : command.tag.carriesPayload = true := by
  rw [Command.tag]
  cases h with
  | reliable hbody => rw [hbody]; rfl
  | fragment hbody => rw [hbody]; rfl
  | unreliable hbody => rw [hbody]; rfl
  | unsequenced hbody => rw [hbody]; rfl
  | repeated hbody => rw [hbody]; rfl

/-- Delivering a packet gives out no number. -/
theorem Channel.receive_outgoing (channel : Channel) :
    channel.receive.2.outgoingReliable = channel.outgoingReliable ∧
      channel.receive.2.outgoingUnreliable = channel.outgoingUnreliable := by
  unfold receive receiveReliable
  repeat' split
  all_goals exact ⟨rfl, rfl⟩

/-- Taking in data gives out no number. -/
theorem Channel.Takes.outgoing {channel taken : Channel} {command : Command}
    (h : channel.Takes command taken) : taken.outgoingReliable = channel.outgoingReliable ∧
      taken.outgoingUnreliable = channel.outgoingUnreliable := by
  have hqueue (arrival : Arrival) :
      (channel.queueReliable arrival).2.outgoingReliable = channel.outgoingReliable ∧
        (channel.queueReliable arrival).2.outgoingUnreliable = channel.outgoingUnreliable := by
    unfold queueReliable
    repeat' split
    all_goals exact ⟨rfl, rfl⟩
  cases h with
  | reliable => exact hqueue _
  | fragment =>
    unfold addFragment
    repeat' split
    all_goals first | exact ⟨rfl, rfl⟩ | exact hqueue _
  | unreliable =>
    unfold queueUnreliable
    repeat' split
    all_goals exact ⟨rfl, rfl⟩
  | unsequenced => exact ⟨rfl, rfl⟩
  | repeated => exact ⟨rfl, rfl⟩

namespace Peer

def TakesIn (peer : Peer) (command : Command) (after : Peer) : Prop :=
  ∃ value taken, peer.channel? command.channel = some value ∧ value.Takes command taken ∧
    after.channels = peer.channels.set command.channel.toNat taken

/-- Handling a command takes a peer whose connection is under way to such a peer again. -/
structure Handles (peer : Peer) (command : Command) (after : Peer) : Prop where
  underWay : peer.state.isUnderWay = true
  connected : peer.state = .connected → after.state = .connected
  settings : after.settings = peer.settings
  channels : after.channels = peer.channels ∨ peer.TakesIn command after
  unreliable : after.unreliable = peer.unreliable
  outstanding : after.outstanding ⊆ peer.outstanding
  kept : ∀ other ∈ peer.outstanding, other ∈ after.outstanding ∨
    other.channel = controlChannel ∨ other.tag = .connect ∨
      command.channel = other.channel ∧
        ∃ sentTime, command.body = .acknowledge other.sequence sentTime

/-- What waits to be acknowledged beside what waited before is the command, and its data, if
it has any, has gone to its channel. -/
def Acknowledges (peer : Peer) (command : Command) (after : Peer) : Prop :=
  ∀ acknowledgement ∈ after.acknowledgements, acknowledgement ∈ peer.acknowledgements ∨
    acknowledgement.channel = command.channel ∧ acknowledgement.sequence = command.sequence ∧
    command.requiresAcknowledgement = true ∧
    (command.tag.carriesPayload = true → peer.TakesIn command after)

variable {peer after : Peer} {command : Command} {context : Context}

theorem Handles.refl (command : Command) (h : peer.state.isUnderWay = true) :
    Handles peer command peer where
  underWay := h
  connected h := h
  settings := rfl
  channels := .inl rfl
  unreliable := rfl
  outstanding := List.Subset.refl _
  kept _ hother := .inl hother

/-! ## Beginnings -/

/-- The peer that a connection is asked for with, before the request is queued. -/
def asking (slot : Peer) (address : Address) (count : Nat) (challenge window : UInt32)
    (context : Context) : Peer :=
  { slot.reset with
    address := some address
    challenge := challenge
    state := .connecting
    channels := List.replicate count {}
    mtu := slot.settings.defaultMtu
    window := window
    lastReceive := context.now }

theorem connect_eq {slot : Peer} {address : Address} {channelCount : Nat} {challenge : UInt32}
    (h : slot.connect address channelCount challenge context = .ok peer) :
    ∃ count window, slot.settings.clampChannelCount channelCount = .ok count ∧
      slot.settings.windowFor context.outgoingBandwidth = .ok window ∧
      peer = (slot.asking address count challenge window context).queueControl
        (.connect ((slot.asking address count challenge window context).handshake window
          (UInt32.ofNat count) context)) := by
  unfold connect at h
  cases hcount : slot.settings.clampChannelCount channelCount with
  | error fault =>
    rw [hcount] at h
    cases h
  | ok count =>
    cases hwindow : slot.settings.windowFor context.outgoingBandwidth with
    | error fault =>
      rw [hcount, hwindow] at h
      cases h
    | ok window =>
      rw [hcount, hwindow] at h
      simp only [bind, Except.bind, pure, Except.pure, Except.ok.injEq] at h
      exact ⟨count, window, rfl, rfl, h.symm⟩

/-- The peer that grants a connection, before its answer is queued. -/
def granting (slot : Peer) (address : Address) (header : Header) (offer : Handshake)
    (mtu : UInt16) (window : UInt32) (context : Context) : Peer :=
  { slot.reset with
    state := .acknowledgingConnect
    challenge := header.challenge
    address := some address
    remoteId := offer.peer
    incomingBandwidth := offer.incomingBandwidth
    outgoingBandwidth := offer.outgoingBandwidth
    pacing := slot.reset.pacing.configure offer.throttle
    channels := List.replicate offer.channelCount.toNat {}
    mtu := mtu
    window := window
    lastReceive := context.now }

theorem accept_eq {slot : Peer} {address : Address} {header : Header} {offer : Handshake}
    (h : slot.accept address header command offer context = .ok peer) :
    ∃ mtu window answered, slot.settings.clampMtu offer.mtu = .ok mtu ∧
      slot.settings.peerWindow offer.incomingBandwidth context.outgoingBandwidth = .ok window ∧
      slot.settings.windowFor context.incomingBandwidth = .ok answered ∧
      peer = ((slot.granting address header offer mtu window context).queueControl
        (.verifyConnect ((slot.granting address header offer mtu window context).handshake answered
          offer.channelCount context))).queueAcknowledgement command header.sentTime := by
  unfold accept at h
  cases hmtu : slot.settings.clampMtu offer.mtu with
  | error fault =>
    rw [hmtu] at h
    cases h
  | ok mtu =>
    cases hwindow : slot.settings.peerWindow offer.incomingBandwidth context.outgoingBandwidth with
    | error fault =>
      rw [hmtu, hwindow] at h
      cases h
    | ok window =>
      cases hanswered : slot.settings.windowFor context.incomingBandwidth with
      | error fault =>
        rw [hmtu, hwindow, hanswered] at h
        cases h
      | ok answered =>
        rw [hmtu, hwindow, hanswered] at h
        simp only [bind, Except.bind, pure, Except.pure, Except.ok.injEq] at h
        exact ⟨mtu, window, answered, rfl, rfl, rfl, h.symm⟩

/-! ## Acknowledgements -/

theorem mem_or_isNamed {outgoing : Outgoing} {queue : List Outgoing} {p : Outgoing → Bool}
    {sequence : UInt32} {channel : UInt8} (hnamed : ∀ other, p other = true →
      other.isNamed sequence channel = true) (h : outgoing ∈ queue) :
    outgoing ∈ queue.eraseP p ∨ outgoing.isNamed sequence channel = true := by
  cases hp : p outgoing with
  | true => exact .inr (hnamed outgoing hp)
  | false =>
    left
    rw [List.mem_eraseP_of_neg (by rw [hp]; exact Bool.false_ne_true)]
    exact h

/-- An acknowledgement takes out a command that it names, and nothing else changes but the
bookkeeping of what is in flight. -/
theorem removeSent_eq (peer : Peer) (sequence : UInt32) (channel : UInt8) :
    ∃ sent reliable nextTimeout inTransit, (peer.removeSent sequence channel).2 =
        { peer with
          sent := sent
          reliable := reliable
          nextTimeout := nextTimeout
          inTransit := inTransit } ∧
      sent ⊆ peer.sent ∧ reliable ⊆ peer.reliable ∧
      (∀ outgoing ∈ peer.sent, outgoing ∈ sent ∨ outgoing.isNamed sequence channel = true) ∧
      ∀ outgoing ∈ peer.reliable,
        outgoing ∈ reliable ∨ outgoing.isNamed sequence channel = true := by
  unfold removeSent
  split
  · obtain ⟨nextTimeout, hrefreshed⟩ := refreshTimeout_eq _
    refine ⟨_, _, _, _, hrefreshed, List.eraseP_subset, List.Subset.refl _, ?_, ?_⟩
    · intro outgoing houtgoing
      exact mem_or_isNamed (fun _ h ↦ h) houtgoing
    · intro outgoing houtgoing
      exact .inl houtgoing
  · dsimp only
    split
    · refine ⟨_, _, _, _, rfl, List.Subset.refl _, List.eraseP_subset, ?_, ?_⟩
      · intro outgoing houtgoing
        exact .inl houtgoing
      · intro outgoing houtgoing
        exact mem_or_isNamed (fun _ h ↦ (Bool.and_eq_true _ _ ▸ h).2) houtgoing
    · exact ⟨_, _, _, _, rfl, List.Subset.refl _, List.Subset.refl _,
        fun _ houtgoing ↦ .inl houtgoing, fun _ houtgoing ↦ .inl houtgoing⟩

theorem removeConnect_eq (peer : Peer) :
    ∃ sent reliable nextTimeout inTransit, peer.removeConnect =
      { peer with
        sent := sent
        reliable := reliable
        nextTimeout := nextTimeout
        inTransit := inTransit } := by
  unfold removeConnect
  split
  · rename_i outgoing _
    obtain ⟨sent, reliable, nextTimeout, inTransit, hremoved, -⟩ :=
      peer.removeSent_eq outgoing.command.sequence controlChannel
    dsimp only
    rw [hremoved]
    exact ⟨_, _, _, _, rfl⟩
  · exact ⟨_, _, _, _, rfl⟩

/-- A command that an acknowledgement names has its channel and its number. -/
theorem eq_of_isNamed {outgoing : Outgoing} {sequence : UInt32} {channel : UInt8}
    (h : outgoing.isNamed sequence channel = true) :
    outgoing.command.sequence = sequence ∧ outgoing.command.channel = channel := by
  rw [Outgoing.isNamed, Bool.and_eq_true, beq_iff_eq, beq_iff_eq] at h
  exact h

theorem removeSent_outstanding (peer : Peer) (sequence : UInt32) (channel : UInt8) :
    (peer.removeSent sequence channel).2.outstanding ⊆ peer.outstanding ∧
      ∀ other ∈ peer.outstanding, other ∈ (peer.removeSent sequence channel).2.outstanding ∨
        other.sequence = sequence ∧ other.channel = channel := by
  obtain ⟨sent, reliable, nextTimeout, inTransit, hafter, hsent, hreliable, hkept, hwaiting⟩ :=
    peer.removeSent_eq sequence channel
  rw [hafter]
  constructor
  · intro command hcommand
    rw [mem_outstanding] at hcommand ⊢
    exact hcommand.imp (fun h ↦ List.map_subset _ hsent h) fun h ↦ List.map_subset _ hreliable h
  · intro other hother
    rw [mem_outstanding] at hother ⊢
    rcases hother with hother | hother
    · obtain ⟨outgoing, hmem, rfl⟩ := List.mem_map.mp hother
      rcases hkept outgoing hmem with hmem | hnamed
      · exact .inl (.inl (List.mem_map.mpr ⟨outgoing, hmem, rfl⟩))
      · exact .inr (eq_of_isNamed hnamed)
    · obtain ⟨outgoing, hmem, rfl⟩ := List.mem_map.mp hother
      rcases hwaiting outgoing hmem with hmem | hnamed
      · exact .inl (.inr (List.mem_map.mpr ⟨outgoing, hmem, rfl⟩))
      · exact .inr (eq_of_isNamed hnamed)

theorem removeSent_handles {sequence : UInt32} {channel : UInt8}
    (hstate : peer.state.isUnderWay = true)
    (hlost : ∀ other : Command, other.sequence = sequence → other.channel = channel →
      other.channel = controlChannel ∨ other.tag = .connect ∨ command.channel = other.channel ∧
        ∃ sentTime, command.body = .acknowledge other.sequence sentTime) :
    Handles peer command (peer.removeSent sequence channel).2 := by
  obtain ⟨hsubset, hkept⟩ := peer.removeSent_outstanding sequence channel
  obtain ⟨sent, reliable, nextTimeout, inTransit, hafter, -⟩ :=
    peer.removeSent_eq sequence channel
  exact { Handles.refl command hstate with
    connected := fun h ↦ by rw [hafter]; exact h
    settings := by rw [hafter]
    channels := .inl (by rw [hafter])
    unreliable := by rw [hafter]
    outstanding := hsubset
    kept := fun other hother ↦ (hkept other hother).imp_right fun h ↦ hlost other h.1 h.2 }

theorem removeSent_handles_of_body {sequence : UInt32} {sentTime : Stamp}
    (hbody : command.body = .acknowledge sequence sentTime)
    (hstate : peer.state.isUnderWay = true) :
    Handles peer command (peer.removeSent sequence command.channel).2 := by
  refine removeSent_handles hstate fun other hsequence hchannel ↦ ?_
  refine .inr (.inr ⟨hchannel.symm, sentTime, ?_⟩)
  rw [hsequence]
  exact hbody

/-- The peer when it has taken an acknowledgement as a sample of the round trip. -/
def heard (peer : Peer) (sentTime : Stamp) (context : Context) : Peer :=
  { peer with
    lastReceive := context.now
    pacing := peer.pacing.recordRoundTrip context.now (Stamp.distance context.now sentTime) }

inductive TakesAcknowledgement (peer : Peer) (channel : UInt8) (sequence : UInt32)
    (sentTime : Stamp) (context : Context) : Option PeerEvent → Peer → Prop where
  /-- What it is to answer is still to be sent. -/
  | early (hearly : Stamp.before context.now sentTime = true) :
      TakesAcknowledgement peer channel sequence sentTime context none peer
  | confirmed (hheard : ¬ Stamp.before context.now sentTime = true)
      (hstate : peer.state = .acknowledgingConnect)
      (hgrant : ((peer.heard sentTime context).removeSent sequence channel).1 =
        some .verifyConnect) :
      TakesAcknowledgement peer channel sequence sentTime context (some .connected)
        { ((peer.heard sentTime context).removeSent sequence channel).2 with state := .connected }
  | departed (hheard : ¬ Stamp.before context.now sentTime = true)
      (hstate : peer.state = .disconnecting)
      (hfarewell : ((peer.heard sentTime context).removeSent sequence channel).1 =
        some .disconnect) :
      TakesAcknowledgement peer channel sequence sentTime context (some .disconnected) peer.reset
  /-- Nothing comes of it but that another command is taken out. -/
  | noted (hheard : ¬ Stamp.before context.now sentTime = true)
      (hgrant : peer.state = .acknowledgingConnect →
        ((peer.heard sentTime context).removeSent sequence channel).1 ≠ some .verifyConnect)
      (hfarewell : peer.state = .disconnecting →
        ((peer.heard sentTime context).removeSent sequence channel).1 ≠ some .disconnect) :
      TakesAcknowledgement peer channel sequence sentTime context none
        ((peer.heard sentTime context).removeSent sequence channel).2

theorem removeSent_heard_state (peer : Peer) (sentTime : Stamp) (context : Context)
    (sequence : UInt32) (channel : UInt8) :
    ((peer.heard sentTime context).removeSent sequence channel).2.state = peer.state := by
  obtain ⟨_, _, _, _, hremoved, -⟩ := (peer.heard sentTime context).removeSent_eq sequence channel
  rw [hremoved]
  rfl

theorem takesAcknowledgement (peer : Peer) (channel : UInt8) (sequence : UInt32)
    (sentTime : Stamp) (context : Context) :
    peer.TakesAcknowledgement channel sequence sentTime context
      (peer.handleAcknowledge channel sequence sentTime context).1
      (peer.handleAcknowledge channel sequence sentTime context).2 := by
  have hstate := peer.removeSent_heard_state sentTime context sequence channel
  unfold handleAcknowledge
  split
  · rename_i hearly
    exact .early hearly
  · rename_i hheard
    dsimp only
    generalize hnoted : ({ peer with
      lastReceive := context.now
      pacing := peer.pacing.recordRoundTrip context.now (Stamp.distance context.now sentTime) } :
        Peer) = noted
    obtain rfl : peer.heard sentTime context = noted := hnoted
    split
    · rename_i hbefore hgrant
      exact .confirmed hheard (hstate.symm.trans hbefore) hgrant
    · rename_i hbefore hfarewell
      have hreset : ((peer.heard sentTime context).removeSent sequence channel).2.reset =
          peer.reset := by
        obtain ⟨_, _, _, _, hremoved, -⟩ :=
          (peer.heard sentTime context).removeSent_eq sequence channel
        rw [hremoved]
        rfl
      rw [hreset]
      exact .departed hheard (hstate.symm.trans hbefore) hfarewell
    · rename_i hgrant hfarewell
      exact .noted hheard (fun hbefore ↦ hgrant (hstate.trans hbefore))
        fun hbefore ↦ hfarewell (hstate.trans hbefore)

theorem TakesAcknowledgement.handles {sequence : UInt32} {sentTime : Stamp}
    {event : Option PeerEvent}
    (h : peer.TakesAcknowledgement command.channel sequence sentTime context event after)
    (hbody : command.body = .acknowledge sequence sentTime)
    (hafter : after.state.isUnderWay = true) :
    Handles peer command after ∧ after.acknowledgements = peer.acknowledgements := by
  obtain ⟨_, _, _, _, hremoved, -⟩ :=
    (peer.heard sentTime context).removeSent_eq sequence command.channel
  have hhandles (hstate : peer.state.isUnderWay = true) : Handles peer command
      ((peer.heard sentTime context).removeSent sequence command.channel).2 := by
    have h : Handles (peer.heard sentTime context) command _ :=
      removeSent_handles_of_body hbody hstate
    exact { h with }
  have hacknowledgements : ((peer.heard sentTime context).removeSent sequence
      command.channel).2.acknowledgements = peer.acknowledgements := by
    rw [hremoved]
    rfl
  cases h with
  | early => exact ⟨Handles.refl command hafter, rfl⟩
  | confirmed _ hstate =>
    have h := hhandles (by rw [hstate]; rfl)
    exact ⟨{ h with connected := fun _ ↦ rfl }, hacknowledgements⟩
  | departed => cases hafter
  | noted =>
    rw [removeSent_heard_state] at hafter
    exact ⟨hhandles hafter, hacknowledgements⟩

/-! ## The handshake and departures -/

/-- The request for the connection is taken out, and beside it at most another command on the
control channel. -/
theorem removeConnect_handles (peer : Peer) (command : Command)
    (hstate : peer.state.isUnderWay = true) :
    Handles peer command peer.removeConnect ∧
      peer.removeConnect.acknowledgements = peer.acknowledgements := by
  have hfilter (middle : Peer) (hmiddle : Handles peer command middle) :
      Handles peer command
        { middle with reliable := middle.reliable.filter (·.command.tag != .connect) } := by
    refine { hmiddle with channels := hmiddle.channels, outstanding := ?_, kept := ?_ }
    · intro other hother
      apply hmiddle.outstanding
      rw [mem_outstanding] at hother ⊢
      exact hother.imp_right fun h ↦ List.map_subset _ List.filter_sublist.subset h
    · intro other hother
      rcases hmiddle.kept other hother with hkept | hlost
      · rw [mem_outstanding] at hkept
        rcases hkept with hsent | hreliable
        · exact .inl (mem_outstanding.mpr (.inl hsent))
        · obtain ⟨outgoing, hmem, rfl⟩ := List.mem_map.mp hreliable
          cases htag : outgoing.command.tag != .connect with
          | true =>
            left
            exact mem_outstanding.mpr (.inr (List.mem_map.mpr
              ⟨outgoing, List.mem_filter.mpr ⟨hmem, htag⟩, rfl⟩))
          | false =>
            have hconnect : outgoing.command.tag = .connect := by simpa using htag
            exact .inr (.inr (.inl hconnect))
      · exact .inr hlost
  have hremoved (sequence : UInt32) :
      Handles peer command (peer.removeSent sequence controlChannel).2 :=
    removeSent_handles hstate fun _ _ hchannel ↦ .inl hchannel
  constructor
  · unfold removeConnect
    split
    · exact hfilter _ (hremoved _)
    · exact hfilter _ (Handles.refl command hstate)
  · obtain ⟨_, _, _, _, hafter⟩ := peer.removeConnect_eq
    rw [hafter]

inductive TakesGrant (peer : Peer) (answer : Handshake) : Handled → Prop where
  /-- It waits for none. -/
  | unasked (hstate : peer.state ≠ .connecting) :
      TakesGrant peer answer { accepted := true, peer := peer }
  /-- Something else is granted than was asked for. -/
  | refused (hstate : peer.state = .connecting) (hdiffers : peer.agreesWith answer = false) :
      TakesGrant peer answer { accepted := false, peer := { peer with state := .zombie } }
  | granted {mtu : UInt16} {window : UInt32} (hstate : peer.state = .connecting)
      (hagrees : peer.agreesWith answer = true)
      (hmtu : peer.settings.clampMtu answer.mtu = .ok mtu)
      (hwindow : peer.settings.clampWindow answer.window = .ok window) :
      TakesGrant peer answer {
        event := some .connected
        accepted := true
        peer := { peer.removeConnect with
          remoteId := answer.peer
          mtu := min mtu peer.removeConnect.mtu
          window := min window peer.removeConnect.window
          incomingBandwidth := answer.incomingBandwidth
          outgoingBandwidth := answer.outgoingBandwidth
          state := .connected } }

theorem takesGrant_of_handleVerifyConnect {answer : Handshake} {handled : Handled}
    (h : peer.handleVerifyConnect answer = .ok handled) : peer.TakesGrant answer handled := by
  unfold handleVerifyConnect at h
  split at h
  · rename_i hstate
    cases h
    exact .unasked hstate
  · rename_i hstate
    have hconnecting : peer.state = .connecting := Decidable.not_not.mp hstate
    split at h
    · rename_i hdiffers
      cases h
      exact .refused hconnecting (Bool.not_eq_true' _ ▸ hdiffers)
    · rename_i hagrees
      cases hmtu : peer.settings.clampMtu answer.mtu with
      | error fault =>
        rw [hmtu] at h
        cases h
      | ok mtu =>
        cases hwindow : peer.settings.clampWindow answer.window with
        | error fault =>
          rw [hmtu, hwindow] at h
          cases h
        | ok window =>
          rw [hmtu, hwindow] at h
          cases h
          exact .granted hconnecting (by simpa using hagrees) hmtu hwindow

theorem TakesGrant.handles {answer : Handshake} {handled : Handled}
    (h : peer.TakesGrant answer handled) (command : Command)
    (hafter : handled.peer.state.isUnderWay = true) :
    Handles peer command handled.peer ∧ handled.peer.acknowledgements = peer.acknowledgements := by
  cases h with
  | unasked => exact ⟨Handles.refl command hafter, rfl⟩
  | refused => cases hafter
  | granted hconnecting =>
    obtain ⟨hremoved, hacknowledgements⟩ :=
      removeConnect_handles peer command (by rw [hconnecting]; rfl)
    exact ⟨{ hremoved with connected := fun _ ↦ rfl }, hacknowledgements⟩

/-- When the other side leaves, the connection is no longer under way. -/
theorem handleDisconnect_isUnderWay (peer : Peer) (confirm : Bool) :
    (peer.handleDisconnect confirm).state.isUnderWay = false := by
  unfold handleDisconnect
  cases hstate : peer.state <;> cases confirm <;> simp [hstate, reset, vacant] <;> rfl

/-! ## Data -/

theorem dataChannel?_eq_some {channel : UInt8} {value : Channel}
    (h : peer.dataChannel? channel = some value) :
    peer.state = .connected ∧ peer.channel? channel = some value := by
  unfold dataChannel? at h
  split at h
  · rename_i hstate
    exact ⟨hstate, h⟩
  · cases h

/-- Data goes to its channel and changes nothing else. -/
theorem setChannel_handles {value taken : Channel}
    (hvalue : peer.dataChannel? command.channel = some value) (htakes : value.Takes command taken)
    (groups : GroupWindow) :
    let after := { peer with groups := groups }.setChannel command.channel taken
    Handles peer command after ∧ after.acknowledgements = peer.acknowledgements ∧
      peer.TakesIn command after := by
  intro after
  obtain ⟨hstate, hchannel⟩ := dataChannel?_eq_some hvalue
  have hunderWay : peer.state.isUnderWay = true := by
    rw [hstate]
    rfl
  have htaken : peer.TakesIn command after := ⟨value, taken, hchannel, htakes, rfl⟩
  exact ⟨{ Handles.refl command hunderWay with channels := .inr htaken }, rfl, htaken⟩

/-! ## All commands -/

inductive Obeys (peer : Peer) (command : Command) (context : Context) : Handled → Prop where
  /-- It asks for nothing, or not for anything that is done here. -/
  | nothing {accepted : Bool}
      (htag : command.tag = .idle ∨ command.tag = .ping ∨ command.tag = .connect) :
      Obeys peer command context { accepted := accepted, peer := peer }
  | acknowledged {sequence : UInt32} {sentTime : Stamp} {event : Option PeerEvent} {after : Peer}
      (hbody : command.body = .acknowledge sequence sentTime)
      (htakes : peer.TakesAcknowledgement command.channel sequence sentTime context event after) :
      Obeys peer command context { event := event, accepted := true, peer := after }
  | answered {answer : Handshake} {handled : Handled} (hbody : command.body = .verifyConnect answer)
      (hgrant : peer.TakesGrant answer handled) : Obeys peer command context handled
  | left (hbody : command.body = .disconnect) :
      Obeys peer command context {
        accepted := true
        peer := peer.handleDisconnect command.requiresAcknowledgement }
  | taken {value taken : Channel} {groups : GroupWindow}
      (hvalue : peer.dataChannel? command.channel = some value)
      (htakes : value.Takes command taken) :
      Obeys peer command context {
        accepted := true
        peer := { peer with groups := groups }.setChannel command.channel taken }
  | refused (hpayload : command.tag.carriesPayload = true) :
      Obeys peer command context { accepted := false, peer := peer }
  /-- The other end tells its share. -/
  | limited {incoming outgoing window : UInt32}
      (hbody : command.body = .bandwidthLimit incoming outgoing)
      (hwindow : peer.settings.peerWindow incoming context.outgoingBandwidth = .ok window) :
      Obeys peer command context {
        accepted := true
        peer := { peer with
          incomingBandwidth := incoming
          outgoingBandwidth := outgoing
          window := window } }
  | throttled {parameters : ThrottleParameters}
      (hbody : command.body = .throttleConfigure parameters) :
      Obeys peer command context {
        accepted := true
        peer := { peer with pacing := peer.pacing.configure parameters } }

theorem setChannel_of_dataChannel? {channel : UInt8} {value : Channel}
    (h : peer.dataChannel? channel = some value) : peer.setChannel channel value = peer := by
  obtain ⟨-, hchannel⟩ := dataChannel?_eq_some h
  obtain ⟨hlt, hget⟩ := List.getElem?_eq_some_iff.mp hchannel
  rw [setChannel, ← hget, List.set_getElem_self]

theorem handleUnsequenced_obeys {group : UInt32} {payload : Bytes}
    (hbody : command.body = .sendUnsequenced group payload) :
    peer.Obeys command context (peer.handleUnsequenced command.channel group payload) := by
  unfold handleUnsequenced
  split
  · exact .refused (by rw [Command.tag_of_body hbody]; rfl)
  · rename_i value hvalue
    dsimp only
    split
    · exact .taken hvalue (.unsequenced hbody)
    · have hsame : ({ peer with groups := (peer.groups.accept group).2 } : Peer).setChannel
          command.channel value = { peer with groups := (peer.groups.accept group).2 } :=
        setChannel_of_dataChannel? hvalue
      rw [← hsame]
      exact .taken hvalue (.repeated hbody)

theorem handleFragment_obeys {fragment : Fragment} (hbody : command.body = .sendFragment fragment) :
    peer.Obeys command context (peer.handleFragment command.channel fragment) := by
  have hpayload : command.tag.carriesPayload = true := by
    rw [Command.tag_of_body hbody]
    rfl
  unfold handleFragment
  split
  · exact .refused hpayload
  · rename_i hvalue
    split
    · exact .taken hvalue (.fragment hbody)
    · exact .refused hpayload

theorem obeys_of_perform {handled : Handled} (h : peer.perform command context = .ok handled) :
    peer.Obeys command context handled := by
  have hpayload {tag : Tag} (htag : command.tag = tag) (hcarries : tag.carriesPayload = true) :
      command.tag.carriesPayload = true := htag ▸ hcarries
  unfold perform at h
  cases hbody : command.body with
  | acknowledge sequence sentTime =>
    rw [hbody] at h
    cases h
    exact .acknowledged hbody (peer.takesAcknowledgement ..)
  | verifyConnect answer =>
    rw [hbody] at h
    exact .answered hbody (takesGrant_of_handleVerifyConnect h)
  | disconnect =>
    rw [hbody] at h
    cases h
    exact .left hbody
  | sendReliable payload =>
    rw [hbody] at h
    dsimp only at h
    split at h
    · cases h
      exact .refused (hpayload (Command.tag_of_body hbody) rfl)
    · rename_i hvalue
      cases h
      exact .taken hvalue (.reliable hbody)
  | sendUnreliable sequence payload =>
    rw [hbody] at h
    dsimp only at h
    split at h
    · cases h
      exact .refused (hpayload (Command.tag_of_body hbody) rfl)
    · rename_i hvalue
      cases h
      exact .taken hvalue (.unreliable hbody)
  | sendUnsequenced group payload =>
    rw [hbody] at h
    cases h
    exact handleUnsequenced_obeys hbody
  | sendFragment fragment =>
    rw [hbody] at h
    cases h
    exact handleFragment_obeys hbody
  | bandwidthLimit incoming outgoing =>
    rw [hbody] at h
    dsimp only at h
    cases hwindow : peer.settings.peerWindow incoming context.outgoingBandwidth with
    | error fault =>
      rw [hwindow] at h
      cases h
    | ok window =>
      rw [hwindow] at h
      cases h
      exact .limited hbody hwindow
  | throttleConfigure parameters =>
    rw [hbody] at h
    cases h
    exact .throttled hbody
  | idle | ping | connect offer =>
    rw [hbody] at h
    cases h
    exact .nothing (by rw [Command.tag_of_body hbody]; simp [Body.tag])

/-- A command that was accepted is acknowledged if it asks for it. -/
theorem handle_eq_ok {header : Header} {event : Option PeerEvent}
    (h : peer.handle header command context = .ok (event, after)) :
    ∃ handled, peer.perform command context = .ok handled ∧ handled.event = event ∧
      (after = handled.peer ∨ handled.accepted = true ∧ command.requiresAcknowledgement = true ∧
        after = handled.peer.queueAcknowledgement command header.sentTime) := by
  unfold handle at h
  cases hperform : peer.perform command context with
  | error fault =>
    rw [hperform] at h
    cases h
  | ok handled =>
    rw [hperform] at h
    dsimp only [bind, Except.bind] at h
    split at h
    · rename_i haccepted
      rw [Bool.and_eq_true] at haccepted
      cases h
      exact ⟨handled, rfl, rfl, .inr ⟨haccepted.1, haccepted.2, rfl⟩⟩
    · cases h
      exact ⟨handled, rfl, rfl, .inl rfl⟩

/-- What handling a command comes to before it is acknowledged: accepted data has gone to its
channel, and nothing was acknowledged yet. -/
theorem perform_handles {handled : Handled} (h : peer.perform command context = .ok handled)
    (hafter : handled.peer.state.isUnderWay = true) :
    Handles peer command handled.peer ∧
      handled.peer.acknowledgements = peer.acknowledgements ∧
      (handled.accepted = true → command.tag.carriesPayload = true →
        peer.TakesIn command handled.peer) := by
  have hplain {tag : Tag} (htag : command.tag = tag) (hnone : tag.carriesPayload = false)
      (hhandles : Handles peer command handled.peer ∧
        handled.peer.acknowledgements = peer.acknowledgements) :
      Handles peer command handled.peer ∧
        handled.peer.acknowledgements = peer.acknowledgements ∧
        (handled.accepted = true → command.tag.carriesPayload = true →
          peer.TakesIn command handled.peer) := by
    refine ⟨hhandles.1, hhandles.2, fun _ hpayload ↦ ?_⟩
    rw [htag, hnone] at hpayload
    cases hpayload
  cases obeys_of_perform h with
  | nothing htag =>
    have hsame : Handles peer command peer := Handles.refl command hafter
    rcases htag with htag | htag | htag <;> exact hplain htag rfl ⟨hsame, rfl⟩
  | acknowledged hbody htakes =>
    exact hplain (Command.tag_of_body hbody) rfl (htakes.handles hbody hafter)
  | answered hbody hgrant =>
    exact hplain (Command.tag_of_body hbody) rfl (hgrant.handles command hafter)
  | left =>
    rw [handleDisconnect_isUnderWay] at hafter
    cases hafter
  | taken hvalue htakes =>
    obtain ⟨hhandles, hsame, htaken⟩ := setChannel_handles hvalue htakes _
    exact ⟨hhandles, hsame, fun _ _ ↦ htaken⟩
  | refused => exact ⟨Handles.refl command hafter, rfl, fun h ↦ by cases h⟩
  | limited hbody =>
    exact hplain (Command.tag_of_body hbody) rfl
      ⟨{ (Handles.refl command hafter : Handles peer command peer) with }, rfl⟩
  | throttled hbody =>
    exact hplain (Command.tag_of_body hbody) rfl
      ⟨{ (Handles.refl command hafter : Handles peer command peer) with }, rfl⟩

theorem handle_handles {header : Header} {event : Option PeerEvent}
    (h : peer.handle header command context = .ok (event, after))
    (hafter : after.state.isUnderWay = true) :
    Handles peer command after ∧ peer.Acknowledges command after := by
  obtain ⟨handled, hperform, -, rfl | ⟨haccepted, hrequires, rfl⟩⟩ := handle_eq_ok h
  · obtain ⟨hhandles, hsame, -⟩ := perform_handles hperform hafter
    refine ⟨hhandles, fun acknowledgement hmem ↦ ?_⟩
    rw [hsame] at hmem
    exact .inl hmem
  · obtain ⟨_, _, heq, hwaiting⟩ :=
      handled.peer.queueAcknowledgement_eq command header.sentTime
    rw [heq] at hafter ⊢
    obtain ⟨hhandles, hsame, htaken⟩ := perform_handles hperform hafter
    refine ⟨{ hhandles with }, fun acknowledgement hmem ↦ ?_⟩
    rcases hwaiting acknowledgement hmem with hmem | ⟨-, rfl⟩
    · rw [hsame] at hmem
      exact .inl hmem
    · exact .inr ⟨rfl, rfl, hrequires, htaken haccepted⟩

end Peer

end ReliableDatagram
