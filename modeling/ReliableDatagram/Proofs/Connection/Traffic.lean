import ReliableDatagram.Proofs.Connection.Basic

/-!
# What one end sends

All that an end sends is an acknowledgement, a command on the control channel or a command
of a packet that was submitted, under the numbers that the log of its channel gives. This
holds of the queues and of every datagram that was composed, and it continues to hold as
long as the connection is under way and no number has passed the greatest word.
-/

namespace ReliableDatagram

open Submission

/-- The command is on the control channel and carries no payload. -/
def Command.Controls (command : Command) : Prop :=
  command.channel = controlChannel ∧ command.tag.carriesPayload = false

/-! ## Datagrams -/

/-- A connection that is under way after some commands was so before. -/
theorem Peer.HandlesAll.isUnderWay {header : Header} {commands : List Command}
    {peer after : Peer} (h : HandlesAll header commands peer after)
    (hafter : after.state.isUnderWay = true) : peer.state.isUnderWay = true := by
  induction h with
  | nil => exact hafter
  | cons hhandle _ ih => exact (handle_handles hhandle (ih hafter)).1.underWay

/-- What handling each command of a datagram preserves, handling all of them preserves. -/
theorem Peer.HandlesAll.preserves {header : Header} {commands : List Command}
    {peer after : Peer} {P : Peer → Prop} (h : HandlesAll header commands peer after)
    (hafter : after.state.isUnderWay = true)
    (hstep : ∀ command ∈ commands, ∀ middle next : Peer, P middle →
      Handles middle command next → middle.Acknowledges command next → P next)
    (hpeer : P peer) : P after := by
  induction h with
  | nil => exact hpeer
  | @cons command rest peer middle after event context hhandle hrest ih =>
    have hmore : ∀ other ∈ rest, ∀ middle next : Peer, P middle → Handles middle other next →
        middle.Acknowledges other next → P next :=
      fun other hother ↦ hstep other (List.mem_cons_of_mem _ hother)
    obtain ⟨hhandles, hacknowledges⟩ := handle_handles hhandle (hrest.isUnderWay hafter)
    exact ih hafter hmore
      (hstep command List.mem_cons_self peer middle hpeer hhandles hacknowledges)

namespace End

theorem channel_set {e after : End} {lane : UInt8} {old value : Channel}
    (hold : e.peer.channel? lane = some old)
    (hset : after.peer.channels = e.peer.channels.set lane.toNat value) (other : UInt8) :
    after.channel other = if other = lane then value else e.channel other := by
  have hlt := (List.getElem?_eq_some_iff.mp hold).1
  unfold channel Peer.channel?
  rw [hset]
  split
  · rename_i heq
    rw [heq, List.getElem?_set_self hlt, Option.getD_some]
  · rename_i hne
    rw [List.getElem?_set_ne fun heq ↦ hne (UInt8.toNat_inj.mp heq).symm]

theorem channel_congr {e after : End} (h : after.peer.channels = e.peer.channels) (lane : UInt8) :
    after.channel lane = e.channel lane := by
  rw [channel, Peer.channel?, h]
  rfl

theorem channel_of_eq_some {e : End} {lane : UInt8} {value : Channel}
    (h : e.peer.channel? lane = some value) : e.channel lane = value := by
  rw [channel, h, Option.getD_some]

/-! ## Steps -/

theorem log_submit (e : End) (lane : UInt8) (packet : Packet) (after : Peer) (other : UInt8) :
    (e.submit lane packet after).log other =
      e.log other ++ if other = lane then [e.submission lane packet after] else [] := by
  rw [log, submit, List.filter_append, log]
  congr 1
  by_cases heq : other = lane
  · simp [submission, heq]
  · have hne : ¬ lane = other := fun h ↦ heq h.symm
    simp [submission, heq, hne]

theorem compose_eq (e : End) (now : Stamp) (check : Bool) :
    ((e.compose now check).peer = (e.peer.compose now check).2 ∧
      (e.compose now check).submitted = e.submitted ∧ (e.compose now check).taken = e.taken) ∧
      ∀ datagram ∈ (e.compose now check).composed, datagram ∈ e.composed ∨
        (e.peer.compose now check).1 = .ok (.datagram datagram) := by
  unfold compose
  split
  · rename_i bytes peer hcompose
    rw [hcompose]
    refine ⟨⟨rfl, rfl, rfl⟩, fun datagram hdatagram ↦ ?_⟩
    rcases List.mem_append.mp hdatagram with hdatagram | hdatagram
    · exact .inl hdatagram
    · rw [List.mem_singleton.mp hdatagram]
      exact .inr rfl
  · rename_i hcompose
    rw [hcompose]
    exact ⟨⟨rfl, rfl, rfl⟩, fun datagram hdatagram ↦ .inl hdatagram⟩

/-- What composing does while the connection stays under way. -/
theorem compose_of_isUnderWay {e : End} {now : Stamp} {check : Bool}
    (hunderWay : (e.compose now check).peer.state.isUnderWay = true) :
    ∃ commands, e.peer.Composes commands (e.compose now check).peer ∧
      (e.compose now check).submitted = e.submitted ∧ (e.compose now check).taken = e.taken ∧
      ∀ datagram ∈ (e.compose now check).composed, ∀ header others,
        Datagram.Reads (e.compose now check).peer.settings.checksums datagram header others →
          (datagram ∈ e.composed ∧
            Datagram.Reads e.peer.settings.checksums datagram header others) ∨
          others = commands := by
  obtain ⟨⟨hpeer, hsubmitted, htaken⟩, hcomposed⟩ := e.compose_eq now check
  rw [hpeer] at hunderWay ⊢
  rcases e.peer.compose_composes now check with hover | ⟨commands, hcomposes, hreads⟩
  · rw [hover] at hunderWay
    cases hunderWay
  refine ⟨commands, hcomposes, hsubmitted, htaken, ?_⟩
  intro datagram hdatagram header others hothers
  rw [hcomposes.settings] at hothers
  rcases hcomposed datagram hdatagram with hold | hnew
  · exact .inl ⟨hold, hothers⟩
  · exact .inr (hreads datagram hnew header others hothers)

/-- Delivering a packet changes nothing but the channel and what was delivered on it. -/
theorem receive_eq (e : End) (lane : UInt8) :
    (∃ channels, (e.receive lane).peer = { e.peer with channels := channels } ∧
      channels.length = e.peer.channels.length) ∧
      (e.receive lane).submitted = e.submitted ∧ (e.receive lane).composed = e.composed ∧
      (∀ other, (e.receive lane).channel other =
        if other = lane then (e.channel lane).receive.2 else e.channel other) ∧
      ∀ other, (e.receive lane).delivered other =
        e.delivered other ++ if other = lane then (e.channel lane).receive.1.toList else [] := by
  have hpeer : (e.receive lane).peer = (e.peer.receive lane).2 := by
    unfold receive
    split <;> (rename_i hreceive; rw [hreceive])
  have hhistory : (e.receive lane).submitted = e.submitted ∧
      (e.receive lane).composed = e.composed := by
    unfold receive
    split <;> exact ⟨rfl, rfl⟩
  have hdelivered (other : UInt8) : (e.receive lane).delivered other =
      e.delivered other ++ if other = lane then (e.peer.receive lane).1.toList else [] := by
    unfold receive
    split
    · rename_i packet peer hreceive
      rw [hreceive, delivered, List.filter_append, List.map_append, delivered]
      congr 1
      by_cases heq : other = lane
      · simp [heq]
      · have hne : ¬ lane = other := fun h ↦ heq h.symm
        simp [heq, hne]
    · rename_i hreceive
      rw [hreceive]
      simp [delivered]
  unfold Peer.receive at hpeer hdelivered
  cases hvalue : e.peer.channel? lane with
  | none =>
    rw [hvalue] at hpeer hdelivered
    have hfresh : (e.channel lane).receive = (none, e.channel lane) := by
      rw [channel, hvalue]
      rfl
    have hsame (other : UInt8) : (e.receive lane).channel other = e.channel other :=
      channel_congr (by rw [hpeer]) other
    rw [hfresh]
    refine ⟨⟨e.peer.channels, hpeer, rfl⟩, hhistory.1, hhistory.2, fun other ↦ ?_, hdelivered⟩
    rw [hsame]
    split
    · rename_i heq
      rw [heq]
    · rfl
  | some value =>
    rw [hvalue] at hpeer hdelivered
    rw [channel_of_eq_some hvalue]
    exact ⟨⟨_, hpeer, List.length_set⟩, hhistory.1, hhistory.2,
      fun other ↦ channel_set hvalue (by rw [hpeer]; rfl) other, hdelivered⟩

/-! ## Commands of the log -/

/-- The command is a reliable one of a packet that was submitted. -/
def Owes (e : End) (command : Command) : Prop :=
  ∃ (lane : UInt8) (i : Nat) (submission : Submission), (e.log lane)[i]? = some submission ∧
    submission.Issues (reliableBefore (e.log lane) i) command

inductive Queues (e : End) : Command → Prop where
  | control {command : Command} (hcontrols : command.Controls) : Queues e command
  | reliable {command : Command} (howes : e.Owes command) : Queues e command
  | unreliable {lane : UInt8} {i : Nat} {submission : Submission}
      (hget : (e.log lane)[i]? = some submission) (hkind : submission.isUnreliable = true) :
      Queues e (submission.unreliableCommand (reliableBefore (e.log lane) i)
        (unreliableBefore (e.log lane) i))
  | unsequenced {command : Command} {group : UInt32} {payload : Bytes}
      (hbody : command.body = .sendUnsequenced group payload)
      (hsilent : command.requiresAcknowledgement = false) : Queues e command

def Emits (e : End) (command : Command) : Prop :=
  (∃ acknowledgement : Acknowledgement, command = acknowledgement.toCommand) ∨ e.Queues command

variable {e after : End} {more : List Submission} {command : Command}

theorem log_append (h : after.submitted = e.submitted ++ more) (lane : UInt8) :
    after.log lane = e.log lane ++ more.filter (·.channel == lane) := by
  rw [log, h, List.filter_append, log]

theorem channel_of_mem_log {submission : Submission} {lane : UInt8} (h : submission ∈ e.log lane) :
    submission.channel = lane := by
  simpa using (List.mem_filter.mp h).2

theorem Owes.mono (howes : e.Owes command) (h : after.submitted = e.submitted ++ more) :
    after.Owes command := by
  obtain ⟨lane, i, submission, hget, hissues⟩ := howes
  have hlt := (List.getElem?_eq_some_iff.mp hget).1
  refine ⟨lane, i, submission, ?_, ?_⟩
  · rw [log_append h]
    exact getElem?_append_of_some hget
  · rw [log_append h, reliableBefore_append _ (by omega)]
    exact hissues

theorem Queues.mono (hqueues : e.Queues command) (h : after.submitted = e.submitted ++ more) :
    after.Queues command := by
  cases hqueues with
  | control hcontrols => exact .control hcontrols
  | reliable howes => exact .reliable (howes.mono h)
  | @unreliable lane i submission hget hkind =>
    have hlt := (List.getElem?_eq_some_iff.mp hget).1
    rw [← reliableBefore_append (more.filter (·.channel == lane))
        (by omega : i ≤ (e.log lane).length),
      ← unreliableBefore_append (more.filter (·.channel == lane))
        (by omega : i ≤ (e.log lane).length), ← log_append h]
    exact .unreliable (by rw [log_append h]; exact getElem?_append_of_some hget) hkind
  | unsequenced hbody hsilent => exact .unsequenced hbody hsilent

/-! ## What an end keeps up -/

/-- The connection is under way, all channels have a number of their own, and no sequence
number has passed the greatest word. -/
structure Fits (e : End) : Prop where
  underWay : e.peer.state.isUnderWay = true
  channels : e.peer.channels.length ≤ 255
  reliable : ∀ lane, reliableBefore (e.log lane) (e.log lane).length < 4294967296
  unreliable : ∀ lane, unreliableBefore (e.log lane) (e.log lane).length < 4294967296

/-- What an end queues and sends follows its log. -/
structure Orderly (e : End) : Prop where
  numbered : ∀ lane, Numbered (e.log lane)
  data : ∀ submission ∈ e.submitted, submission.channel ≠ controlChannel
  reliableCounter : ∀ lane, (e.channel lane).outgoingReliable =
    UInt32.ofNat (reliableBefore (e.log lane) (e.log lane).length)
  unreliableCounter : ∀ lane, (e.channel lane).outgoingUnreliable =
    UInt32.ofNat (unreliableBefore (e.log lane) (e.log lane).length)
  outstanding : ∀ command ∈ e.peer.outstanding, command.Controls ∨ e.Owes command
  unreliable : ∀ outgoing ∈ e.peer.unreliable, e.Queues outgoing.command
  composed : ∀ datagram ∈ e.composed, ∀ header commands,
    Datagram.Reads e.peer.settings.checksums datagram header commands →
      ∀ command ∈ commands, e.Emits command

/-- A submission is possible on the channels that exist only, and the control channel is none
of them. -/
theorem Fits.ne_controlChannel {lane : UInt8} {packet : Packet} {peer : Peer} (hfits : e.Fits)
    (hsend : e.peer.send lane packet = .ok peer) : lane ≠ controlChannel := by
  rintro rfl
  have hlt := (Peer.send_frame hsend).2.1
  have hlength := hfits.channels
  have hcontrol : controlChannel.toNat = 255 := rfl
  omega

/-- An end fits if one with more submissions does. -/
theorem Fits.of_append (h : after.Fits) (hunderWay : e.peer.state.isUnderWay = true)
    (hlength : after.peer.channels.length = e.peer.channels.length)
    (hmore : after.submitted = e.submitted ++ more) : e.Fits := by
  refine ⟨hunderWay, by rw [← hlength]; exact h.channels, fun lane ↦ ?_, fun lane ↦ ?_⟩
  · have hlt := h.reliable lane
    rw [log_append hmore, List.length_append] at hlt
    rw [← reliableBefore_append (more.filter (·.channel == lane)) (Nat.le_refl _)]
    exact Nat.lt_of_le_of_lt (reliableBefore_mono _ (Nat.le_add_right _ _)) hlt
  · have hlt := h.unreliable lane
    rw [log_append hmore, List.length_append] at hlt
    rw [← unreliableBefore_append (more.filter (·.channel == lane)) (Nat.le_refl _)]
    exact Nat.lt_of_le_of_lt (unreliableBefore_mono _ (Nat.le_add_right _ _)) hlt

/-- Handling commands changes neither the settings nor how many channels there are. -/
theorem handlesAll_frame {header : Header} {commands : List Command} {peer next : Peer}
    (h : Peer.HandlesAll header commands peer next) (hunderWay : next.state.isUnderWay = true) :
    next.channels.length = peer.channels.length ∧ next.settings = peer.settings := by
  refine h.preserves (P := fun middle ↦
    middle.channels.length = peer.channels.length ∧ middle.settings = peer.settings)
    hunderWay ?_ ⟨rfl, rfl⟩
  intro command _ middle last hmiddle hhandled _
  rw [hhandled.settings, ← hmiddle.1]
  refine ⟨?_, hmiddle.2⟩
  rcases hhandled.channels with hsame | ⟨value, taken, -, -, hset⟩
  · rw [hsame]
  · rw [hset, List.length_set]

/-- What a step leaves as it was: what fits after the step has fitted before it. -/
theorem Step.fits {checksums : Bool} {incoming : List Bytes}
    (hstep : Step checksums incoming e after) (hafter : after.Fits) :
    e.Fits ∧ after.peer.settings = e.peer.settings ∧
      ∃ more, after.submitted = e.submitted ++ more := by
  have hunderWay := hafter.underWay
  cases hstep with
  | @submit lane packet peer hsend =>
    obtain ⟨hstate, -, hlength, hsettings⟩ := Peer.send_frame hsend
    have hbefore : e.peer.state.isUnderWay = true := by
      rw [hstate]
      rfl
    have hmore : (e.submit lane packet peer).submitted =
        e.submitted ++ [e.submission lane packet peer] := rfl
    exact ⟨hafter.of_append hbefore hlength hmore, hsettings, _, hmore⟩
  | @compose now check =>
    obtain ⟨commands, hcomposes, hsubmitted, -⟩ := compose_of_isUnderWay hunderWay
    have hmore : (e.compose now check).submitted = e.submitted ++ [] := by
      rw [hsubmitted, List.append_nil]
    have hbefore : e.peer.state.isUnderWay = true := by
      rcases hcomposes.state with hsame | hzombie
      · rw [← hsame]
        exact hunderWay
      · rw [hzombie] at hunderWay
        cases hunderWay
    have hlength := congrArg List.length hcomposes.channels
    exact ⟨hafter.of_append hbefore hlength hmore, hcomposes.settings, [], hmore⟩
  | arrive _ _ hhandles =>
    obtain ⟨hlength, hsettings⟩ := handlesAll_frame hhandles hunderWay
    have hmore := (List.append_nil e.submitted).symm
    exact ⟨hafter.of_append (hhandles.isUnderWay hunderWay) hlength hmore, hsettings, [], hmore⟩
  | @receive lane =>
    obtain ⟨⟨channels, hpeer, hlength⟩, hsubmitted, -⟩ := e.receive_eq lane
    have hmore : (e.receive lane).submitted = e.submitted ++ [] := by
      rw [hsubmitted, List.append_nil]
    have hsame : (e.receive lane).peer.channels.length = e.peer.channels.length := by
      rw [hpeer]
      exact hlength
    rw [hpeer] at hunderWay
    exact ⟨hafter.of_append hunderWay hsame hmore, by rw [hpeer], [], hmore⟩

namespace Orderly

/-- Nothing is queued or sent that was not there before, but for control commands. -/
theorem of_subset (h : e.Orderly) (hsubmitted : after.submitted = e.submitted)
    (hcounters : ∀ lane, (after.channel lane).outgoingReliable = (e.channel lane).outgoingReliable ∧
      (after.channel lane).outgoingUnreliable = (e.channel lane).outgoingUnreliable)
    (houtstanding : ∀ command ∈ after.peer.outstanding,
      command ∈ e.peer.outstanding ∨ command.Controls)
    (hunreliable : after.peer.unreliable ⊆ e.peer.unreliable)
    (hcomposed : ∀ datagram ∈ after.composed, ∀ header commands,
      Datagram.Reads after.peer.settings.checksums datagram header commands →
        ∀ command ∈ commands, e.Emits command) : after.Orderly := by
  have hlog (lane : UInt8) : after.log lane = e.log lane := by
    rw [log, hsubmitted, log]
  have hmore : after.submitted = e.submitted ++ [] := by
    rw [hsubmitted, List.append_nil]
  refine {
    numbered := fun lane ↦ by rw [hlog]; exact h.numbered lane
    data := fun submission hmem ↦ h.data submission (by rw [← hsubmitted]; exact hmem)
    reliableCounter := fun lane ↦ by rw [hlog, (hcounters lane).1]; exact h.reliableCounter lane
    unreliableCounter := fun lane ↦ by
      rw [hlog, (hcounters lane).2]
      exact h.unreliableCounter lane
    outstanding := ?_
    unreliable := fun outgoing hmem ↦ (h.unreliable outgoing (hunreliable hmem)).mono hmore
    composed := ?_ }
  · intro command hcommand
    rcases houtstanding command hcommand with hold | hcontrols
    · exact (h.outstanding command hold).imp_right fun howes ↦ howes.mono hmore
    · exact .inl hcontrols
  · intro datagram hdatagram header commands hreads command hcommand
    exact (hcomposed datagram hdatagram header commands hreads command hcommand).imp_right
      fun hqueues ↦ hqueues.mono hmore

/-- What a command drawn from the queues can be. -/
theorem emits_of_composes (h : e.Orderly) {commands : List Command} {peer : Peer}
    (hcomposes : e.peer.Composes commands peer) : ∀ command ∈ commands, e.Emits command := by
  intro command hcommand
  rcases hcomposes.drawn command hcommand with ⟨acknowledgement, -, rfl⟩ | ⟨outgoing, hmem, rfl⟩ |
    hmem | ⟨hchannel, hbody⟩
  · exact .inl ⟨acknowledgement, rfl⟩
  · exact .inr (h.unreliable outgoing hmem)
  · rcases h.outstanding command hmem with hcontrols | howes
    · exact .inr (.control hcontrols)
    · exact .inr (.reliable howes)
  · refine .inr (.control ⟨hchannel, ?_⟩)
    rw [Command.tag, hbody]
    rfl

theorem compose (h : e.Orderly) (now : Stamp) (check : Bool)
    (hafter : (e.compose now check).peer.state.isUnderWay = true) :
    (e.compose now check).Orderly := by
  obtain ⟨commands, hcomposes, hsubmitted, -, hreads⟩ := compose_of_isUnderWay hafter
  apply h.of_subset hsubmitted
  · intro lane
    rw [channel_congr hcomposes.channels lane]
    exact ⟨rfl, rfl⟩
  · intro command hcommand
    rcases hcomposes.outstanding command hcommand with hold | ⟨hcontrol, hbody⟩
    · exact .inl hold
    · refine .inr ⟨hcontrol, ?_⟩
      rw [Command.tag, hbody]
      rfl
  · exact hcomposes.unreliable
  · intro datagram hdatagram header others hothers
    rcases hreads datagram hdatagram header others hothers with ⟨hold, hsame⟩ | rfl
    · exact h.composed datagram hold header others hsame
    · exact h.emits_of_composes hcomposes

theorem handles (h : e.Orderly) {peer : Peer} (hhandles : e.peer.Handles command peer) :
    { e with peer := peer }.Orderly := by
  have hsubmitted : { e with peer := peer }.submitted = e.submitted := rfl
  apply h.of_subset hsubmitted
  · intro lane
    rcases hhandles.channels with hsame | ⟨value, taken, hvalue, htakes, hset⟩
    · rw [channel_congr (e := e) hsame]
      exact ⟨rfl, rfl⟩
    · rw [channel_set hvalue hset]
      split
      · rename_i heq
        rw [heq, channel_of_eq_some hvalue]
        exact htakes.outgoing
      · exact ⟨rfl, rfl⟩
  · intro command hcommand
    exact .inl (hhandles.outstanding hcommand)
  · rw [hhandles.unreliable]
    exact List.Subset.refl _
  · intro datagram hdatagram header others hothers
    rw [hhandles.settings] at hothers
    exact h.composed datagram hdatagram header others hothers

theorem arrive (h : e.Orderly) {header : Header} {commands : List Command} {peer : Peer}
    (hhandles : Peer.HandlesAll header commands e.peer peer)
    (hafter : peer.state.isUnderWay = true) : { e with peer := peer }.Orderly := by
  refine hhandles.preserves (P := fun middle ↦ { e with peer := middle }.Orderly) hafter ?_ h
  intro command _ middle next hmiddle hstep _
  exact hmiddle.handles hstep

section Submission

variable {lane : UInt8} {packet : Packet} {peer : Peer}

/-- A submitted packet is recorded with the commands that it is sent with, numbered from where
the log of its channel ends. -/
theorem sends (h : e.Orderly) (hfits : e.Fits) (hsend : e.peer.send lane packet = .ok peer) :
    ∃ value, e.peer.channel? lane = some value ∧
      e.peer.Sends (e.submission lane packet peer) value peer ∧
      value.outgoingReliable.toNat = reliableBefore (e.log lane) (e.log lane).length ∧
      value.outgoingUnreliable.toNat = unreliableBefore (e.log lane) (e.log lane).length ∧
      (e.submission lane packet peer).commands = (e.submission lane packet peer).reliableCommands
        (reliableBefore (e.log lane) (e.log lane).length) := by
  obtain ⟨value, hvalue, hsends⟩ := Peer.send_eq_ok hsend (hfits.ne_controlChannel hsend)
  have hsends : e.peer.Sends (e.submission lane packet peer) value peer := hsends _
  have hreliable := h.reliableCounter lane
  have hunreliable := h.unreliableCounter lane
  rw [channel_of_eq_some hvalue] at hreliable hunreliable
  have hnumber : value.outgoingReliable.toNat =
      reliableBefore (e.log lane) (e.log lane).length := by
    rw [hreliable, UInt32.toNat_ofNat']
    exact Nat.mod_eq_of_lt (hfits.reliable lane)
  refine ⟨value, hvalue, hsends, hnumber, ?_, ?_⟩
  · rw [hunreliable, UInt32.toNat_ofNat']
    exact Nat.mod_eq_of_lt (hfits.unreliable lane)
  · rw [← hnumber]
    change (peer.reliable.drop e.peer.reliable.length).map (·.command) = _
    rw [hsends.reliable, List.drop_left, List.map_map]
    exact List.map_id _

theorem submit (h : e.Orderly) (hfits : e.Fits) (hsend : e.peer.send lane packet = .ok peer)
    (hafter : (e.submit lane packet peer).Fits) : (e.submit lane packet peer).Orderly := by
  obtain ⟨value, hvalue, hsends, hreliable, hunreliable, hcommands⟩ := h.sends hfits hsend
  have hmore : (e.submit lane packet peer).submitted =
      e.submitted ++ [e.submission lane packet peer] := rfl
  have hlog := e.log_submit lane packet peer
  have hget : ((e.submit lane packet peer).log lane)[(e.log lane).length]? =
      some (e.submission lane packet peer) := by
    rw [hlog, if_pos rfl, getElem?_concat]
  have hbefore : reliableBefore ((e.submit lane packet peer).log lane) (e.log lane).length =
      reliableBefore (e.log lane) (e.log lane).length := by
    rw [hlog, reliableBefore_append _ (Nat.le_refl _)]
  have hbeside : unreliableBefore ((e.submit lane packet peer).log lane) (e.log lane).length =
      unreliableBefore (e.log lane) (e.log lane).length := by
    rw [hlog, unreliableBefore_append _ (Nat.le_refl _)]
  refine {
    numbered := fun other ↦ ?_
    data := ?_
    reliableCounter := fun other ↦ ?_
    unreliableCounter := fun other ↦ ?_
    outstanding := ?_
    unreliable := ?_
    composed := ?_ }
  · have hreliable := hafter.reliable other
    have hunreliable := hafter.unreliable other
    rw [hlog] at hreliable hunreliable ⊢
    split
    · rename_i heq
      rw [if_pos heq] at hreliable hunreliable
      rw [heq] at hreliable hunreliable ⊢
      exact (h.numbered lane).concat hcommands hsends.small (Nat.le_max_left _ _) hreliable
        hunreliable
    · rw [List.append_nil]
      exact h.numbered other
  · intro submission hmem
    rcases List.mem_append.mp hmem with hmem | hmem
    · exact h.data submission hmem
    · rw [List.mem_singleton.mp hmem]
      exact hfits.ne_controlChannel hsend
  · rw [channel_set hvalue hsends.channels, hlog]
    split
    · rename_i heq
      rw [heq, reliableBefore_concat, hcommands, hreliable, UInt32.ofNat_add, ← hreliable,
        UInt32.ofNat_toNat]
    · rw [List.append_nil]
      exact h.reliableCounter other
  · rw [channel_set hvalue hsends.channels, hlog]
    split
    · rename_i heq
      rw [heq, unreliableBefore_concat, UInt32.ofNat_add, ← hunreliable, UInt32.ofNat_toNat]
      split <;> rfl
    · rw [List.append_nil]
      exact h.unreliableCounter other
  · intro command hcommand
    change command ∈ peer.outstanding at hcommand
    rw [hsends.mem_outstanding, hreliable, ← hcommands] at hcommand
    rcases hcommand with hold | hnew
    · exact (h.outstanding command hold).imp_right fun howes ↦ howes.mono hmore
    · right
      rw [hcommands, mem_reliableCommands] at hnew
      refine ⟨lane, _, _, hget, ?_⟩
      rw [hbefore]
      exact hnew
  · intro outgoing houtgoing
    change outgoing ∈ peer.unreliable at houtgoing
    rw [hsends.unreliable] at houtgoing
    rcases List.mem_append.mp houtgoing with hold | hnew
    · exact (h.unreliable outgoing hold).mono hmore
    · obtain ⟨command, hcommand, rfl⟩ := List.mem_map.mp hnew
      rcases Peer.mem_looseCommands hcommand with ⟨group, rfl⟩ | ⟨hkind, rfl⟩
      · exact .unsequenced rfl (Peer.requiresAcknowledgement_of_unsequenced rfl)
      · rw [hreliable, hunreliable, ← hbefore, ← hbeside]
        exact .unreliable hget hkind
  · intro datagram hdatagram header commands hreads command hcommand
    change Datagram.Reads peer.settings.checksums datagram header commands at hreads
    rw [hsends.settings] at hreads
    exact (h.composed datagram hdatagram header commands hreads command hcommand).imp_right
      fun hqueues ↦ hqueues.mono hmore

end Submission

theorem receive (h : e.Orderly) (lane : UInt8) : (e.receive lane).Orderly := by
  obtain ⟨⟨channels, hpeer, -⟩, hsubmitted, hcomposed, hchannel, -⟩ := e.receive_eq lane
  apply h.of_subset hsubmitted
  · intro other
    rw [hchannel]
    split
    · rename_i heq
      rw [heq]
      exact Channel.receive_outgoing _
    · exact ⟨rfl, rfl⟩
  · intro command hcommand
    rw [hpeer] at hcommand
    exact .inl hcommand
  · rw [hpeer]
    exact List.Subset.refl _
  · intro datagram hdatagram header others hothers
    rw [hpeer] at hothers
    rw [hcomposed] at hdatagram
    exact h.composed datagram hdatagram header others hothers

/-- An end whose traffic follows its log continues to follow it. -/
theorem step (h : e.Orderly) {checksums : Bool} {incoming : List Bytes}
    (hstep : Step checksums incoming e after) (hafter : after.Fits) : after.Orderly := by
  have hfits := (hstep.fits hafter).1
  cases hstep with
  | submit hsend => exact h.submit hfits hsend hafter
  | compose => exact h.compose _ _ hafter.underWay
  | arrive _ _ hhandles => exact h.arrive hhandles hafter.underWay
  | receive => exact h.receive _

end Orderly

end End

end ReliableDatagram
