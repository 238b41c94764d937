import ReliableDatagram.Proofs.Channel.Wrapping
import ReliableDatagram.Proofs.Peer.Reception

/-!
# Sending across the greatest word

Whatever numbers two ends have reached on a channel on which they are in step, the next packet
that one of them sends in sequence is delivered at the other one as soon as its commands have
arrived, and the ends are in step again. The packet that begins with the number 0 is the
exception: its commands are acknowledged as all others, and it is never delivered.
-/

namespace ReliableDatagram

namespace Peer

variable {peer near sent far : Peer} {channel : UInt8} {packet : Packet}
  {value sending receiving : Channel} {command : Command}

structure Incoming where
  header : Header
  command : Command
  /-- What the peer knows of its host at that time. -/
  context : Context

def Incoming.acknowledgement? (incoming : Incoming) : Option Acknowledgement :=
  if incoming.command.requiresAcknowledgement then
    some (.ofCommand incoming.command incoming.header.sentTime)
  else none

def handleEach (peer : Peer) : List Incoming → Except Fault Peer
  | [] => .ok peer
  | incoming :: rest =>
    match peer.handle incoming.header incoming.command incoming.context with
    | .error fault => .error fault
    | .ok (_, after) => after.handleEach rest

def submits (peer : Peer) (channel : UInt8) (packet : Packet) : Submission :=
  ⟨channel, packet, peer.fragmentLength, []⟩

/-- The commands in the queues of a peer that were not there before. -/
def queuedSince (before after : Peer) : List Command :=
  (after.reliable.drop before.reliable.length ++
    after.unreliable.drop before.unreliable.length).map (·.command)

/-! ## Sending -/

/-- A packet that is sent in sequence queues its commands, numbered from where the channel
stands, and the counters of the channel move on. -/
theorem queuedSince_of_send (hsend : near.send channel packet = .ok sent)
    (hdata : channel ≠ controlChannel) (hsending : near.channel? channel = some sending)
    (hsequenced : (near.submits channel packet).isUnsequenced = false) :
    queuedSince near sent = (near.submits channel packet).issued sending ∧
      sent.channel? channel = some ((near.submits channel packet).advance sending) := by
  obtain ⟨value, hvalue, hsends⟩ := send_eq_ok hsend hdata
  rw [hsending] at hvalue
  cases hvalue
  have hqueues : Sends near (near.submits channel packet) sending sent := hsends []
  have hchannel : (near.submits channel packet).channel = channel := rfl
  generalize near.submits channel packet = submission at *
  constructor
  · rw [queuedSince, hqueues.reliable, hqueues.unreliable, List.drop_left, List.drop_left,
      List.map_append, map_command, map_command, Submission.issued, looseCommands]
    split
    · exact List.append_nil _
    · rename_i hunreliable
      rw [Submission.isUnsequenced, Bool.eq_false_iff.mpr hunreliable, Bool.not_false,
        Bool.true_and] at hsequenced
      rw [hsequenced, if_neg Bool.false_ne_true, Submission.reliableCommands_of_isUnreliable]
      · rfl
      · rw [Submission.isUnreliable, Bool.eq_false_iff.mpr hunreliable, hsequenced]
        rfl
  · have hlt := (List.getElem?_eq_some_iff.mp hsending).1
    rw [channel?, hqueues.channels, hchannel]
    exact List.getElem?_set_self hlt

/-! ## Receiving -/

/-- A command brings data that a peer takes in once it is connected. -/
def Admits (peer : Peer) (command : Command) : Prop :=
  match command.body with
  | .sendReliable _ | .sendUnreliable _ _ => True
  | .sendFragment fragment => peer.acceptsFragment fragment = true
  | _ => False

/-- A fragment of a packet that is not too large for the receiving end is accepted. -/
theorem acceptsFragment_of_mem {start : UInt32} {size : Nat} {payload : Bytes} {fragment : Fragment}
    (hsize : 0 < size) (hsmall : payload.length < 4294967296)
    (hlimit : payload.length ≤ peer.settings.packetSizeLimit)
    (h : fragment ∈ Fragment.ofPayload start size payload) :
    peer.acceptsFragment fragment = true := by
  obtain ⟨k, hk, rfl⟩ := Fragment.exists_of_mem hsize h
  have hinside := Fragment.offset_add_length_le hsize hsmall h
  have hget := Bytes.getElem?_chunks hsize payload k
  rw [if_pos hk] at hget
  have hnumber : k < (payload.chunks size).length := (List.getElem?_eq_some_iff.mp hget).1
  have hcount := payload.length_chunks_le hsize
  simp only [acceptsFragment, Bool.and_eq_true, decide_eq_true_eq, UInt32.lt_iff_toNat_lt,
    UInt32.le_iff_toNat_le, UInt32.toNat_ofNat', Nat.mod_eq_of_lt hsmall] at hinside ⊢
  rw [Nat.mod_eq_of_lt (by omega : k * size < 2 ^ 32)] at hinside ⊢
  rw [Nat.mod_eq_of_lt (by omega : k < 2 ^ 32),
    Nat.mod_eq_of_lt (by omega : (payload.chunks size).length < 2 ^ 32)]
  exact ⟨⟨⟨⟨hk, hinside⟩, hnumber⟩, hlimit⟩, hcount⟩

theorem handle_of_admits (hconnected : peer.state = .connected)
    (hvalue : peer.channel? command.channel = some value) (hadmits : peer.Admits command)
    (header : Header) (context : Context) :
    ∃ total, peer.handle header command context = .ok (none, { peer with
      channels := peer.channels.set command.channel.toNat (value.absorb command)
      outgoingTotal := total
      acknowledgements := peer.acknowledgements ++
        (Incoming.acknowledgement? ⟨header, command, context⟩).toList }) := by
  have hdata : peer.dataChannel? command.channel = some value := by
    rw [dataChannel?, if_pos hconnected, hvalue]
  have hperform : peer.perform command context =
      .ok ⟨none, true, peer.setChannel command.channel (value.absorb command)⟩ := by
    unfold Admits at hadmits
    unfold perform Channel.absorb
    split at hadmits
    · rename_i payload hbody
      rw [hbody]
      dsimp only
      rw [hdata]
    · rename_i sequence payload hbody
      rw [hbody]
      dsimp only
      rw [hdata]
    · rename_i fragment hbody
      rw [hbody]
      dsimp only [handleFragment]
      rw [hdata]
      dsimp only
      rw [if_pos hadmits]
    · exact hadmits.elim
  unfold handle Incoming.acknowledgement?
  rw [hperform]
  dsimp only [bind, Except.bind]
  rw [Bool.true_and]
  split
  · have hacknowledges : acknowledges (peer.setChannel command.channel
        (value.absorb command)).state command.tag = true := by
      change acknowledges peer.state command.tag = true
      rw [hconnected]
      rfl
    rw [queueAcknowledgement, if_pos hacknowledges]
    exact ⟨_, rfl⟩
  · refine ⟨peer.outgoingTotal, ?_⟩
    rw [Option.toList_none, List.append_nil]
    rfl

/-- Commands that a connected peer admits are handled one after the other, and their data goes
to their channel. -/
theorem handleEach_of_admits {incoming : List Incoming} (hconnected : peer.state = .connected)
    (hvalue : peer.channel? channel = some value)
    (hadmits : ∀ one ∈ incoming, one.command.channel = channel ∧ peer.Admits one.command) :
    ∃ after, peer.handleEach incoming = .ok after ∧
      after.channels = peer.channels.set channel.toNat
        ((incoming.map (·.command)).foldl Channel.absorb value) ∧
      after.acknowledgements =
        peer.acknowledgements ++ incoming.filterMap Incoming.acknowledgement? := by
  induction incoming generalizing peer value with
  | nil =>
    refine ⟨peer, rfl, ?_, (List.append_nil _).symm⟩
    obtain ⟨hlt, hget⟩ := List.getElem?_eq_some_iff.mp hvalue
    rw [List.map_nil, List.foldl_nil, ← hget, List.set_getElem_self]
  | cons one rest ih =>
    obtain ⟨⟨rfl, hone⟩, hrest⟩ := List.forall_mem_cons.mp hadmits
    obtain ⟨total, hhandle⟩ := handle_of_admits hconnected hvalue hone one.header one.context
    have hlt := (List.getElem?_eq_some_iff.mp hvalue).1
    let next : Peer := { peer with
      channels := peer.channels.set one.command.channel.toNat (value.absorb one.command)
      outgoingTotal := total
      acknowledgements := peer.acknowledgements ++ one.acknowledgement?.toList }
    have hnext : next.channel? one.command.channel = some (value.absorb one.command) :=
      List.getElem?_set_self hlt
    have hstanding : next.state = .connected := hconnected
    obtain ⟨after, hafter, hchannels, hacknowledgements⟩ := ih hstanding hnext hrest
    refine ⟨after, ?_, ?_, ?_⟩
    · rw [handleEach, hhandle]
      exact hafter
    · rw [hchannels, List.set_set, List.map_cons, List.foldl_cons]
    · rw [hacknowledgements]
      change peer.acknowledgements ++ one.acknowledgement?.toList ++ _ = _
      rw [List.append_assoc]
      cases hasks : one.acknowledgement? with
      | none =>
        rw [List.filterMap_cons_none hasks]
        rfl
      | some acknowledgement =>
        rw [List.filterMap_cons_some hasks]
        rfl

/-! ## Sending and receiving -/

theorem receive_eq (hvalue : peer.channel? channel = some value) :
    (peer.receive channel).1 = value.receive.1 ∧
      (peer.receive channel).2.channel? channel = some value.receive.2 := by
  have hlt := (List.getElem?_eq_some_iff.mp hvalue).1
  rw [receive, hvalue]
  exact ⟨rfl, List.getElem?_set_self hlt⟩

/-- The commands of a packet are admitted by an end that allows packets of its size. -/
theorem admits_of_mem_issued {submission : Submission} (hpacket : submission.InSequence)
    (hlimit : submission.packet.size ≤ peer.settings.packetSizeLimit)
    (hmem : command ∈ submission.issued sending) :
    command.channel = submission.channel ∧ peer.Admits command := by
  rcases hpacket.cases_of_mem hmem with ⟨-, -, rfl⟩ | ⟨-, rfl⟩ | ⟨-, sequence, fragment, hfragment,
    rfl⟩
  · exact ⟨rfl, trivial⟩
  · exact ⟨rfl, trivial⟩
  · exact ⟨rfl, acceptsFragment_of_mem hpacket.fragmentLength hpacket.small hlimit hfragment⟩

/-- A packet that is sent in sequence on a channel whose ends are in step, and whose commands
all arrive, in any order and any number of times, is delivered unless it begins with the number
0, and the ends are in step again. A packet that begins with the number 0 leaves no trace but
its acknowledgements. -/
theorem delivered_unless_number_eq_zero {incoming : List Incoming}
    (hsend : near.send channel packet = .ok sent) (hdata : channel ≠ controlChannel)
    (hsequenced : (near.submits channel packet).isUnsequenced = false)
    (hsending : near.channel? channel = some sending)
    (hreceiving : far.channel? channel = some receiving) (hin : sending.InStep receiving)
    (hconnected : far.state = .connected) (hlimit : packet.size ≤ far.settings.packetSizeLimit)
    (hincoming : ∀ command, command ∈ incoming.map (·.command) ↔ command ∈ queuedSince near sent) :
    ∃ after, far.handleEach incoming = .ok after ∧
      after.acknowledgements =
        far.acknowledgements ++ incoming.filterMap Incoming.acknowledgement? ∧
      ((near.submits channel packet).number sending = 0 →
        after.channels = far.channels ∧ (after.receive channel).1 = none) ∧
      ((near.submits channel packet).number sending ≠ 0 →
        (after.receive channel).1 = some (near.submits channel packet).delivered ∧
        ∃ advanced taken, sent.channel? channel = some advanced ∧
          (after.receive channel).2.channel? channel = some taken ∧ advanced.InStep taken) := by
  obtain ⟨hqueued, hadvanced⟩ := queuedSince_of_send hsend hdata hsending hsequenced
  have hpacket : (near.submits channel packet).InSequence := by
    obtain ⟨value, -, hsends⟩ := send_eq_ok hsend hdata
    exact ⟨hsequenced, Nat.le_max_left 1 _, (hsends []).small⟩
  have hissued (command : Command) (hmem : command ∈ incoming.map (·.command)) :
      command ∈ (near.submits channel packet).issued sending := by
    rw [← hqueued]
    exact (hincoming command).mp hmem
  have hadmits : ∀ one ∈ incoming, one.command.channel = channel ∧ far.Admits one.command :=
    fun one hone ↦ admits_of_mem_issued hpacket hlimit
      (hissued one.command (List.mem_map_of_mem hone))
  obtain ⟨after, hafter, hchannels, hacknowledgements⟩ :=
    handleEach_of_admits hconnected hreceiving hadmits
  have hlt := (List.getElem?_eq_some_iff.mp hreceiving).1
  have htaken : after.channel? channel =
      some ((incoming.map (·.command)).foldl Channel.absorb receiving) := by
    rw [channel?, hchannels]
    exact List.getElem?_set_self hlt
  obtain ⟨hpacketed, hleft⟩ := receive_eq htaken
  refine ⟨after, hafter, hacknowledgements, fun hzero ↦ ?_, fun hnumber ↦ ?_⟩
  · have hsame := hpacket.absorbAll_of_number_eq_zero hzero hissued receiving
    rw [hsame] at hchannels hpacketed
    obtain ⟨_, hget⟩ := List.getElem?_eq_some_iff.mp hreceiving
    rw [← hget, List.set_getElem_self] at hchannels
    exact ⟨hchannels, hpacketed.trans hin.receive_eq_none⟩
  · have hnothing : (near.submits channel packet).Gathers sending receiving [] receiving :=
      .nothing rfl
    have hgathers := hnothing.absorbAll hpacket hin hnumber hissued
    have hall : (near.submits channel packet).issued sending ⊆
        (incoming.map (·.command)).reverse ++ [] := by
      intro command hcommand
      rw [List.append_nil, List.mem_reverse, hincoming, hqueued]
      exact hcommand
    obtain ⟨hdelivered, hstep⟩ := hgathers.receive hpacket hin hnumber hall
    exact ⟨hpacketed.trans hdelivered, _, _, hadvanced, hleft, hstep⟩

/-- A channel that has reached the greatest number both ways. -/
def greatest : Channel := { outgoingReliable := 4294967295, incomingReliable := 4294967295 }

def atGreatest : Peer := { Peer.vacant 0 {} with state := .connected, channels := [greatest] }

/-- The packet behind the greatest number is acknowledged and lost. -/
theorem delivered_unless_number_eq_zero_atGreatest :
    ∃ sent after, atGreatest.send 0 ⟨[1, 2, 3], .reliable⟩ = .ok sent ∧
      atGreatest.handleEach [⟨⟨0, 0, 1, 5, 0⟩, ⟨0, Command.acknowledgeFlag, 0,
        .sendReliable [1, 2, 3]⟩, ⟨6, 0, 0⟩⟩] = .ok after ∧
      after.acknowledgements = [⟨0, 0, 5, .sendReliable⟩] ∧ (after.receive 0).1 = none := by
  obtain ⟨sent, hsend⟩ : ∃ sent, atGreatest.send 0 ⟨[1, 2, 3], .reliable⟩ = .ok sent := ⟨_, rfl⟩
  have hchannel : atGreatest.channel? 0 = some greatest := rfl
  have hin : greatest.InStep greatest := ⟨rfl, rfl, rfl, rfl⟩
  have hqueued : queuedSince atGreatest sent =
      [⟨0, Command.acknowledgeFlag, 0, .sendReliable [1, 2, 3]⟩] :=
    (queuedSince_of_send hsend (by decide) hchannel (by decide)).1
  have hlimit : Packet.size ⟨[1, 2, 3], .reliable⟩ ≤ atGreatest.settings.packetSizeLimit := by
    decide
  let incoming : List Incoming := [⟨⟨0, 0, 1, 5, 0⟩, ⟨0, Command.acknowledgeFlag, 0,
    .sendReliable [1, 2, 3]⟩, ⟨6, 0, 0⟩⟩]
  have hincoming (command : Command) : command ∈ incoming.map (·.command) ↔
      command ∈ queuedSince atGreatest sent := by
    rw [hqueued]
    exact Iff.rfl
  obtain ⟨after, hafter, hacknowledgements, hlost, -⟩ := delivered_unless_number_eq_zero hsend
    (by decide) (by decide) hchannel hchannel hin rfl hlimit hincoming
  exact ⟨sent, after, hsend, hafter, hacknowledgements, (hlost (by decide)).2⟩

end Peer

end ReliableDatagram
