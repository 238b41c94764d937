import ReliableDatagram.Proofs.Peer.Terms

/-!
# Asking for and granting a connection

Asking for a connection leaves a peer with its request as the only command in its queues, and
granting one with the grant and the acknowledgement of the request. Both settle the terms of
the connection as far as they are known by then.
-/

namespace ReliableDatagram

namespace Peer

variable {slot peer : Peer} {address : Address} {context : Context}

def offer (slot : Peer) (count : Nat) (window : UInt32) (context : Context) : Handshake where
  peer := slot.id
  mtu := slot.settings.defaultMtu
  window := window
  channelCount := UInt32.ofNat count
  incomingBandwidth := context.incomingBandwidth
  outgoingBandwidth := context.outgoingBandwidth
  throttle := slot.settings.throttle

def askedTerms (slot : Peer) (count : Nat) (window challenge : UInt32) : Terms where
  id := slot.id
  remoteId := unassignedPeer
  challenge := challenge
  channelCount := count
  mtu := slot.settings.defaultMtu
  window := window
  incomingBandwidth := 0
  outgoingBandwidth := 0
  throttle := slot.settings.throttle
  settings := slot.settings

/-- A peer that has asked for a connection, with nothing done since. -/
structure Asked (slot : Peer) (count : Nat) (window challenge : UInt32) (context : Context)
    (peer : Peer) : Prop where
  state : peer.state = .connecting
  terms : peer.terms = slot.askedTerms count window challenge
  outstanding : peer.outstanding =
    [⟨controlChannel, Command.acknowledgeFlag, 1, .connect (slot.offer count window context)⟩]
  unreliable : peer.unreliable = []
  acknowledgements : peer.acknowledgements = []

theorem connect_eq_ok {channelCount : Nat} {challenge : UInt32}
    (h : slot.connect address channelCount challenge context = .ok peer) :
    ∃ count window, slot.settings.clampChannelCount channelCount = .ok count ∧
      slot.settings.windowFor context.outgoingBandwidth = .ok window ∧
      Asked slot count window challenge context peer := by
  obtain ⟨count, window, hcount, hwindow, rfl⟩ := connect_eq h
  refine ⟨count, window, hcount, hwindow, ?_⟩
  refine {
    state := by rw [queueControl_eq]; rfl
    terms := ?_
    outstanding := by rw [queueControl_eq]; rfl
    unreliable := by rw [queueControl_eq]; rfl
    acknowledgements := by rw [queueControl_eq]; rfl }
  rw [terms_queueControl]
  simp only [Peer.terms, asking, List.length_replicate]
  rfl

def answer (slot : Peer) (mtu : UInt16) (answered : UInt32) (offer : Handshake)
    (context : Context) : Handshake where
  peer := slot.id
  mtu := mtu
  window := answered
  channelCount := offer.channelCount
  incomingBandwidth := context.incomingBandwidth
  outgoingBandwidth := context.outgoingBandwidth
  throttle := offer.throttle

def grantedTerms (slot : Peer) (challenge : UInt32) (offer : Handshake) (mtu : UInt16)
    (window : UInt32) : Terms where
  id := slot.id
  remoteId := offer.peer
  challenge := challenge
  channelCount := offer.channelCount.toNat
  mtu := mtu
  window := window
  incomingBandwidth := offer.incomingBandwidth
  outgoingBandwidth := offer.outgoingBandwidth
  throttle := offer.throttle
  settings := slot.settings

/-- A peer that has granted a connection, with nothing done since. -/
structure Granted (slot : Peer) (header : Header) (command : Command) (offer : Handshake)
    (mtu : UInt16) (window answered : UInt32) (context : Context) (peer : Peer) : Prop where
  state : peer.state = .acknowledgingConnect
  terms : peer.terms = slot.grantedTerms header.challenge offer mtu window
  outstanding : peer.outstanding = [⟨controlChannel, Command.acknowledgeFlag, 1,
    .verifyConnect (slot.answer mtu answered offer context)⟩]
  unreliable : peer.unreliable = []
  acknowledgements : peer.acknowledgements = [.ofCommand command header.sentTime]

theorem accept_eq_ok {header : Header} {command : Command} {offer : Handshake}
    (h : slot.accept address header command offer context = .ok peer) :
    ∃ mtu window answered, slot.settings.clampMtu offer.mtu = .ok mtu ∧
      slot.settings.peerWindow offer.incomingBandwidth context.outgoingBandwidth = .ok window ∧
      slot.settings.windowFor context.incomingBandwidth = .ok answered ∧
      Granted slot header command offer mtu window answered context peer := by
  obtain ⟨mtu, window, answered, hmtu, hwindow, hanswered, rfl⟩ := accept_eq h
  refine ⟨mtu, window, answered, hmtu, hwindow, hanswered, ?_⟩
  refine {
    state := by rw [queueControl_eq]; rfl
    terms := ?_
    outstanding := by rw [queueControl_eq]; rfl
    unreliable := by rw [queueControl_eq]; rfl
    acknowledgements := by rw [queueControl_eq]; rfl }
  rw [terms_queueAcknowledgement, terms_queueControl]
  simp only [Peer.terms, granting, List.length_replicate]
  rfl

end Peer

end ReliableDatagram
