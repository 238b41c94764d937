import ReliableDatagram.Proofs.Peer.Lifecycle
import ReliableDatagram.Proofs.Peer.Naming
import ReliableDatagram.Proofs.Peer.Opening

/-!
# Commands that are kept until they are acknowledged

From the beginning of a connection on, an account is kept of the numbers that its channels have
given out and of whether this end was asked to leave. While the numbers suffice, the grant of a
connection and the request to leave it stay outstanding for as long as the peer waits for their
acknowledgement, and an acknowledgement takes out at most the command that it names.
-/

namespace ReliableDatagram

namespace Peer

variable {peer after : Peer} {channel : UInt8} {count : Nat} {command : Command}
  {context : Context} {event : Option PeerEvent}

/-! ## The account of a connection -/

/-- How many numbers a channel has given out between two moments, unless its counter was set
back. -/
def taken (peer after : Peer) (channel : UInt8) : Nat :=
  (after.lastNumber channel - peer.lastNumber channel).toNat

theorem Spends.taken_eq (h : Spends peer channel count after) (other : UInt8) :
    peer.taken after other = if other = channel then count else 0 := by
  rw [taken, h.numbers, UInt32.add_comm, UInt32.add_sub_cancel]
  split
  · exact UInt32.toNat_ofNat_of_lt' h.small
  · rfl

/-- As long as the numbers that were used since the connection began suffice, none is given out
a second time. -/
theorem Spends.named_of_few {used : UInt8 → Nat} (h : Spends peer channel count after)
    (hnamed : Named peer) (hcounted : ∀ other, (peer.lastNumber other).toNat ≤ used other)
    (hfew : ∀ other, used other + peer.taken after other < 4294967296) :
    Named after ∧
      ∀ other, (after.lastNumber other).toNat ≤ used other + peer.taken after other := by
  constructor
  · have hroom := hfew channel
    rw [h.taken_eq, if_pos rfl] at hroom
    exact h.named hnamed (Nat.lt_of_le_of_lt (Nat.add_le_add_right (hcounted channel) _) hroom)
  · intro other
    have hold := hcounted other
    have hle := Nat.mod_le ((peer.lastNumber other).toNat +
      (if other = channel then UInt32.ofNat count else 0).toNat) (2 ^ 32)
    rw [h.taken_eq, h.numbers, UInt32.toNat_add]
    refine Nat.le_trans hle (Nat.add_le_add hold ?_)
    split
    · exact Nat.le_of_eq (UInt32.toNat_ofNat_of_lt' h.small)
    · exact Nat.le_refl 0

structure Account where
  /-- This end has been asked to leave. -/
  left : Bool
  /-- How many sequence numbers each channel has given out. -/
  used : UInt8 → Nat

def Account.begun (after : Peer) : Account :=
  ⟨false, fun channel ↦ (after.lastNumber channel).toNat⟩

/-- The account when numbers have been given out. -/
def Account.spend (account : Account) (peer after : Peer) : Account :=
  { account with used := fun channel ↦ account.used channel + peer.taken after channel }

/-- The account when this end has been asked to leave, which sets back all counters but that of
the control channel. -/
def Account.leave (account : Account) (peer after : Peer) : Account :=
  ⟨true, fun channel ↦ account.used channel +
    if channel = controlChannel then peer.taken after channel else 0⟩

def Account.next (account : Account) (action : Action) (peer after : Peer) : Account :=
  match action with
  | .connect .. | .accept .. | .reset => .begun after
  | .disconnect | .disconnectNow => account.leave peer after
  | .compose now check =>
    match (peer.compose now check).1 with
    | .ok .timedOut => account
    | _ => account.spend peer after
  | .handle .. => account
  | _ => account.spend peer after

/-- What any actions, one after the other, can make of a vacant slot, with the account of its
connection. -/
inductive Life : Account → Peer → Prop where
  | vacant (id : UInt16) (settings : Settings) : Life ⟨false, fun _ ↦ 0⟩ (vacant id settings)
  | act {account : Account} {peer after : Peer} {action : Action} {event : Option PeerEvent}
      (h : Life account peer) (hact : peer.act action = .ok (event, after)) :
      Life (account.next action peer after) after

/-- What is outstanding, as the account has it. -/
structure Account.Covers (account : Account) (peer : Peer) : Prop where
  counted : ∀ channel, (peer.lastNumber channel).toNat ≤ account.used channel
  named : Named peer
  grant : peer.state = .acknowledgingConnect → account.left = false →
    ∃ command ∈ peer.outstanding, command.tag = .verifyConnect
  farewell : peer.state = .disconnecting → ∃ command ∈ peer.outstanding, command.tag = .disconnect

variable {account : Account} {action : Action}

/-- A connection that is over has nothing outstanding. -/
theorem Account.Covers.of_reset (account : Account) (peer : Peer) : account.Covers peer.reset where
  counted channel := by
    rw [lastNumber_reset]
    exact Nat.zero_le _
  named := .of_nil rfl
  grant h := by cases h
  farewell h := by cases h

/-- An action that only gives out numbers. -/
theorem Account.Covers.spends (h : account.Covers peer) (hspends : Spends peer channel count after)
    (hfew : ∀ other, (account.spend peer after).used other < 4294967296)
    (hstate : after.state = peer.state ∨ after.state = .zombie) :
    (account.spend peer after).Covers after := by
  obtain ⟨hnamed, hcounted⟩ := hspends.named_of_few h.named h.counted hfew
  have hbefore (state : PeerState) (hzombie : state ≠ .zombie) (hafter : after.state = state) :
      peer.state = state := by
    rcases hstate with hsame | hover
    · rw [← hsame, hafter]
    · exact absurd (hafter.symm.trans hover) hzombie
  refine {
    counted := hcounted
    named := hnamed
    grant := fun hafter hstays ↦ ?_
    farewell := fun hafter ↦ ?_ }
  · obtain ⟨command, hcommand, htag⟩ := h.grant (hbefore _ (by decide) hafter) hstays
    exact ⟨command, hspends.kept hcommand, htag⟩
  · obtain ⟨command, hcommand, htag⟩ := h.farewell (hbefore _ (by decide) hafter)
    exact ⟨command, hspends.kept hcommand, htag⟩

/-- The first control command of a connection has the first number. -/
theorem queueControl_named (hnone : peer.outstanding = []) (hzero : peer.controlSequence = 0)
    (body : Body) : Named (peer.queueControl body) := by
  refine (peer.queueControl_spends body).named (.of_nil hnone) ?_
  rw [lastNumber, if_pos rfl, hzero]
  decide

theorem connect_covers {address : Address} {channelCount : Nat} {challenge : UInt32}
    (h : peer.connect address channelCount challenge context = .ok after) :
    (Account.begun after).Covers after := by
  obtain ⟨_, _, -, -, hasked⟩ := connect_eq_ok h
  have hother {state : PeerState} (hafter : after.state = state) : state = .connecting :=
    hafter.symm.trans hasked.state
  refine {
    counted := fun _ ↦ Nat.le_refl _
    named := ?_
    grant := fun hafter ↦ by cases hother hafter
    farewell := fun hafter ↦ by cases hother hafter }
  obtain ⟨count, window, -, -, rfl⟩ := connect_eq h
  exact queueControl_named rfl rfl _

theorem queueAcknowledgement_loses (peer : Peer) (command : Command) (sentTime : Stamp) :
    Loses peer [] (peer.queueAcknowledgement command sentTime) := by
  obtain ⟨_, _, heq, -⟩ := peer.queueAcknowledgement_eq command sentTime
  rw [heq]
  exact { Loses.refl peer with }

theorem accept_covers {address : Address} {header : Header} {offer : Handshake}
    (h : peer.accept address header command offer context = .ok after) :
    (Account.begun after).Covers after := by
  obtain ⟨_, _, _, -, -, -, hgranted⟩ := accept_eq_ok h
  refine {
    counted := fun _ ↦ Nat.le_refl _
    named := ?_
    grant := fun _ _ ↦ ?_
    farewell := fun hafter ↦ by cases hafter.symm.trans hgranted.state }
  · obtain ⟨mtu, window, answered, -, -, -, rfl⟩ := accept_eq h
    exact (queueAcknowledgement_loses ..).named (queueControl_named rfl rfl _)
  · rw [hgranted.outstanding]
    exact ⟨_, List.mem_singleton_self _, rfl⟩

/-- Emptying the queues sets back the counters of the channels, but not the control counter. -/
theorem Account.Covers.cleared (h : account.Covers peer)
    (hspends : Spends peer.clearQueues controlChannel count after)
    (hfew : ∀ channel, (account.leave peer after).used channel < 4294967296) :
    Named after ∧
      ∀ channel, (after.lastNumber channel).toNat ≤ (account.leave peer after).used channel := by
  have htaken (channel : UInt8) : peer.clearQueues.taken after channel =
      if channel = controlChannel then peer.taken after channel else 0 := by
    split
    · rename_i hcontrol
      rw [taken, taken, lastNumber_clearQueues, if_pos hcontrol, lastNumber, lastNumber,
        if_pos hcontrol, if_pos hcontrol]
    · rename_i hdata
      rw [hspends.taken_eq, if_neg hdata]
  have hcounted (channel : UInt8) :
      (peer.clearQueues.lastNumber channel).toNat ≤ account.used channel := by
    rw [lastNumber_clearQueues]
    split
    · rename_i hcontrol
      have hold := h.counted channel
      rwa [lastNumber, if_pos hcontrol] at hold
    · exact Nat.zero_le _
  simp only [leave, ← htaken] at hfew ⊢
  exact hspends.named_of_few (.of_nil rfl) hcounted hfew

/-- A connection that cannot be left stays as it is. -/
theorem Account.Covers.stays (h : account.Covers peer) : (account.leave peer peer).Covers peer where
  counted channel := Nat.le_trans (h.counted channel) (Nat.le_add_right ..)
  named := h.named
  grant _ h := by cases h
  farewell := h.farewell

/-- A connection that does not stand is left without waiting. -/
theorem Account.Covers.tells (h : account.Covers peer) (hcan : peer.canLeave = true)
    (hafter : after = peer.clearQueues.queueCommand
      (.unnumbered .disconnect controlChannel Command.unsequencedFlag))
    (hfew : ∀ channel, (account.leave peer after).used channel < 4294967296) :
    (account.leave peer after).Covers after := by
  have hqueues : Queues peer.clearQueues
      (.unnumbered .disconnect controlChannel Command.unsequencedFlag) after :=
    hafter ▸ queueCommand_numbers (.inl rfl)
  obtain ⟨hnamed, hcounted⟩ := h.cleared (hqueues.spends_one rfl) hfew
  refine {
    counted := hcounted
    named := hnamed
    grant := fun _ h ↦ by cases h
    farewell := fun hstate ↦ ?_ }
  rw [hafter, (peer.clearQueues.queueCommand_enqueues _).state] at hstate
  have hbefore : peer.state = .disconnecting := hstate
  rw [canLeave, hbefore] at hcan
  cases hcan

theorem disconnect_covers (h : account.Covers peer) (hafter : after = peer.disconnect.2)
    (hfew : ∀ channel, (account.leave peer after).used channel < 4294967296) :
    (account.leave peer after).Covers after := by
  unfold disconnect at hafter
  split at hafter
  · rw [hafter]
    exact h.stays
  · rename_i hcan
    split at hafter
    · have hspends : Spends peer.clearQueues controlChannel 1 after := by
        rw [hafter]
        exact (peer.clearQueues.queueControl_spends _).loses { Loses.refl _ with }
      obtain ⟨hnamed, hcounted⟩ := h.cleared hspends hfew
      refine {
        counted := hcounted
        named := hnamed
        grant := fun _ h ↦ by cases h
        farewell := fun _ ↦ ?_ }
      rw [hafter, queueControl_eq]
      exact ⟨_, List.mem_singleton_self _, rfl⟩
    · exact h.tells (by simpa using hcan) hafter hfew

theorem disconnectNow_covers (h : account.Covers peer) (hafter : after = peer.disconnectNow.2)
    (hfew : ∀ channel, (account.leave peer after).used channel < 4294967296) :
    (account.leave peer after).Covers after := by
  unfold disconnectNow at hafter
  split at hafter
  · rw [hafter]
    exact h.stays
  · rename_i hcan
    exact h.tells (by simpa using hcan) hafter hfew

/-- A state in which an acknowledgement is awaited is not entered by handling a command. -/
theorem Turns.eq_of_awaiting {state next : PeerState} (h : Turns state event next)
    (hdeparted : event ≠ some .disconnected)
    (hnext : next = .acknowledgingConnect ∨ next = .disconnecting) : state = next := by
  cases h with
  | same => rfl
  | departed => exact absurd rfl hdeparted
  | _ => rcases hnext with hnext | hnext <;> cases hnext

theorem handle_covers {header : Header} (h : account.Covers peer)
    (hhandle : peer.handle header command context = .ok (event, after)) :
    account.Covers after := by
  by_cases hdeparted : event = some .disconnected
  · rw [handle_departed hhandle hdeparted]
    exact .of_reset account peer
  have hbefore := (handle_turns hhandle).eq_of_awaiting hdeparted
  cases handle_relieves hhandle with
  | cleared _ houtstanding hstate hnumbers =>
    refine {
      counted := fun channel ↦ ?_
      named := .of_nil houtstanding
      grant := fun hafter ↦ absurd hafter hstate.1
      farewell := fun hafter ↦ absurd hafter hstate.2 }
    rcases hnumbers channel with hsame | hzero
    · rw [hsame]
      exact h.counted channel
    · rw [hzero]
      exact Nat.zero_le _
  | granted _ hloses hstate =>
    exact {
      counted := fun channel ↦ by rw [hloses.numbers]; exact h.counted channel
      named := hloses.named h.named
      grant := fun hafter ↦ by cases hafter.symm.trans hstate
      farewell := fun hafter ↦ by cases hafter.symm.trans hstate }
  | loses hloses _ hremoved =>
    refine {
      counted := fun channel ↦ by rw [hloses.numbers]; exact h.counted channel
      named := hloses.named h.named
      grant := fun hafter hstays ↦ ?_
      farewell := fun hafter ↦ ?_ }
    · obtain ⟨grant, hgrant, htag⟩ := h.grant ((hbefore (.inl hafter)).trans hafter) hstays
      refine ⟨grant, (hloses.mem_or_mem hgrant).resolve_left fun htaken ↦ ?_, htag⟩
      obtain ⟨-, -, -, hgone, -⟩ := hremoved grant htaken
      exact hgone htag hafter
    · obtain ⟨farewell, hfarewell, htag⟩ := h.farewell ((hbefore (.inr hafter)).trans hafter)
      refine ⟨farewell, (hloses.mem_or_mem hfarewell).resolve_left fun htaken ↦ ?_, htag⟩
      obtain ⟨-, -, -, -, hgone⟩ := hremoved farewell htaken
      exact hgone htag hafter

theorem compose_covers {now : Stamp} {check : Bool} (h : account.Covers peer)
    (hafter : after = (peer.compose now check).2)
    (hfew : ∀ channel, (account.next (.compose now check) peer after).used channel < 4294967296) :
    (account.next (.compose now check) peer after).Covers after := by
  rw [Account.next] at hfew ⊢
  rcases peer.compose_spends now check with ⟨hover, hreset⟩ | ⟨hgoes, count, hspends⟩
  · rw [hover, hafter, hreset]
    exact .of_reset account peer
  · have hstate := (peer.compose_state now check).resolve_left fun hover ↦ hgoes hover.1
    rw [← hafter] at hspends hstate
    split at hfew
    · rename_i hover
      exact absurd hover hgoes
    · rename_i hsame
      exact h.spends hspends hfew hstate.2

/-- The account of a connection that has begun, or was forgotten, does not depend on what was
before. -/
theorem begins_covers (account : Account) (hbegins : action.begins = true)
    (hact : peer.act action = .ok (event, after)) :
    (account.next action peer after).Covers after := by
  cases action with
  | connect address channelCount challenge context =>
    cases hconnect : peer.connect address channelCount challenge context with
    | error fault =>
      rw [act, hconnect] at hact
      cases hact
    | ok opened =>
      rw [act, hconnect] at hact
      cases hact
      exact connect_covers hconnect
  | accept address header command offer context =>
    cases haccept : peer.accept address header command offer context with
    | error fault =>
      rw [act, haccept] at hact
      cases hact
    | ok opened =>
      rw [act, haccept] at hact
      cases hact
      exact accept_covers haccept
  | reset =>
    cases hact
    exact .of_reset _ peer
  | _ => cases hbegins

/-- Every other action keeps the account, as long as the numbers suffice. -/
theorem act_covers (h : account.Covers peer) (hgoes : action.begins = false)
    (hact : peer.act action = .ok (event, after))
    (hfew : ∀ channel, (account.next action peer after).used channel < 4294967296) :
    (account.next action peer after).Covers after := by
  cases action with
  | connect | accept | reset => cases hgoes
  | send channel packet =>
    rw [act] at hact
    split at hact
    · cases hact
      exact h.spends ((Loses.refl peer).spends controlChannel) hfew (.inl rfl)
    · rename_i hsend
      cases hact
      obtain ⟨count, hspends⟩ := send_spends hsend
      exact h.spends hspends hfew (.inl (send_state hsend))
  | ping =>
    cases hact
    obtain ⟨count, hspends⟩ := peer.ping_spends
    exact h.spends hspends hfew (.inl peer.ping_state)
  | configureThrottle parameters =>
    cases hact
    have hconfigured : Loses peer [] { peer with pacing := peer.pacing.configure parameters } :=
      { Loses.refl peer with }
    exact h.spends (hconfigured.then_spends (queueControl_spends _ _)) hfew
      (.inl (queueControl_state ..))
  | announceBandwidth incoming outgoing =>
    cases hact
    exact h.spends (peer.queueControl_spends _) hfew (.inl (queueControl_state ..))
  | disconnect =>
    cases hact
    exact disconnect_covers h rfl hfew
  | disconnectNow =>
    cases hact
    exact disconnectNow_covers h rfl hfew
  | receive channel =>
    cases hact
    have hstate : (peer.receive channel).2.state = peer.state := by
      unfold receive
      split <;> rfl
    exact h.spends ((peer.receive_loses channel).spends channel) hfew (.inl hstate)
  | receiveAny =>
    cases hact
    exact h.spends (peer.receiveAny_loses.spends controlChannel) hfew (.inl rfl)
  | compose now check =>
    cases hact
    exact compose_covers h rfl hfew
  | handle header command context => exact handle_covers h hact

/-- Nothing but the beginning of another connection lowers the account. -/
theorem Account.used_le_next (account : Account) (action : Action) (peer after : Peer)
    (hgoes : action.begins = false) (channel : UInt8) :
    account.used channel ≤ (account.next action peer after).used channel := by
  cases action with
  | connect | accept | reset => cases hgoes
  | compose now check =>
    rw [next]
    split
    · exact Nat.le_refl _
    · exact Nat.le_add_right ..
  | handle => exact Nat.le_refl _
  | _ => exact Nat.le_add_right ..

theorem Life.covers (h : Life account peer) (hfew : ∀ channel, account.used channel < 4294967296) :
    account.Covers peer := by
  induction h with
  | vacant id settings => exact .of_reset _ (Peer.vacant id settings)
  | @act account peer after action event _ hact ih =>
    cases hgoes : action.begins with
    | true => exact begins_covers account hgoes hact
    | false =>
      refine act_covers (ih fun channel ↦ ?_) hgoes hact hfew
      exact Nat.lt_of_le_of_lt (account.used_le_next action peer after hgoes channel) (hfew channel)

/-- While the numbers of a connection suffice, the grant of a connection stays outstanding until
it is acknowledged, unless this end has left, and so does the request to leave a connection. No
two outstanding commands have the same name, and an acknowledgement takes out at most the one
that it names, unless this is the request to leave, with which the connection is forgotten. -/
theorem Life.names_distinct (h : Life account peer)
    (hfew : ∀ channel, account.used channel < 4294967296) :
    (peer.state = .acknowledgingConnect → account.left = false →
      ∃ grant ∈ peer.outstanding, grant.tag = .verifyConnect) ∧
      (peer.state = .disconnecting → ∃ farewell ∈ peer.outstanding, farewell.tag = .disconnect) ∧
      (peer.outstanding.map Command.name).Nodup ∧
      ∀ header command context sequence sentTime event after,
        command.body = .acknowledge sequence sentTime →
          peer.handle header command context = .ok (event, after) →
            (∃ removed, peer.outstanding.Perm (removed ++ after.outstanding) ∧
              removed.length ≤ 1 ∧ ∀ other ∈ removed, other.name = (command.channel, sequence)) ∨
            peer.state = .disconnecting ∧ after = peer.reset ∧ ∃ farewell ∈ peer.outstanding,
              farewell.tag = .disconnect ∧ farewell.name = (command.channel, sequence) := by
  have hcovers := h.covers hfew
  refine ⟨hcovers.grant, hcovers.farewell, hcovers.named.distinct, ?_⟩
  intro header command context sequence sentTime event after hbody hhandle
  have htag : command.tag = .acknowledge := Command.tag_of_body hbody
  cases handle_relieves hhandle with
  | cleared hcause =>
    rcases hcause with ⟨hevent, farewell, hfarewell, sent, hkind, hchannel, hother⟩ | hleft
    · obtain ⟨hstate, hreset⟩ := (handle_event hhandle).2.mp hevent
      refine .inr ⟨hstate, hreset, farewell, hfarewell, hkind, ?_⟩
      rw [hbody] at hother
      cases hother
      rw [Command.name, hchannel]
    · cases htag.symm.trans hleft
  | granted hgrant => cases htag.symm.trans hgrant
  | loses hloses hlength hremoved =>
    refine .inl ⟨_, hloses.outstanding, hlength, fun other hother ↦ ?_⟩
    obtain ⟨sent, hchannel, hother, -⟩ := hremoved other hother
    rw [hbody] at hother
    cases hother
    rw [Command.name, hchannel]

/-- Some actions, one after the other, with the account that they are to be entered into. -/
def live (account : Account) (peer : Peer) : List Action → Except Fault (Account × Peer)
  | [] => .ok (account, peer)
  | action :: rest => do
    let (_, after) ← peer.act action
    live (account.next action peer after) after rest

theorem Life.live {actions : List Action} {last : Account} (h : Life account peer)
    (hlive : Peer.live account peer actions = .ok (last, after)) : Life last after := by
  induction actions generalizing account peer with
  | nil =>
    cases hlive
    exact h
  | cons action rest ih =>
    rw [Peer.live] at hlive
    cases hact : peer.act action with
    | error fault =>
      rw [hact] at hlive
      cases hlive
    | ok result =>
      rw [hact] at hlive
      exact ih (h.act hact) hlive

/-- A connection is granted; its grant and an announcement are sent, and sent again when they
are overdue. -/
def stay : List Action :=
  let context : Context := ⟨1000, 0, 0⟩
  let offer : Handshake := ⟨3, 1400, 65536, 2, 0, 0, Settings.throttle {}⟩
  [.accept ⟨"10.0.0.1", 4000⟩ ⟨unassignedPeer, 0, 1, 1000, 7⟩
    ⟨controlChannel, Command.acknowledgeFlag, 1, .connect offer⟩ offer context,
    .compose 1000 true, .announceBandwidth 0 0, .compose 1001 true, .compose 9000 true, .ping]

/-- While the confirmation is awaited, the grant and the announcement stay outstanding, under
two names. -/
theorem Life.names_distinct_stay : ∃ account peer, Life account peer ∧
    peer.outstanding.length = 2 ∧ (peer.outstanding.map Command.name).Nodup ∧
      ∃ grant ∈ peer.outstanding, grant.tag = .verifyConnect := by
  have hstay : (match Peer.live ⟨false, fun _ ↦ 0⟩ (Peer.vacant 0 {}) stay with
      | .error _ => false
      | .ok (account, peer) => decide (peer.state = .acknowledgingConnect) && !account.left &&
          peer.outstanding.length == 2 &&
          (List.range 256).all fun k ↦ decide (account.used (UInt8.ofNat k) < 4294967296)) =
        true := by
    decide +kernel
  split at hstay
  · cases hstay
  · rename_i account peer hlive
    simp only [Bool.and_eq_true, decide_eq_true_eq, Bool.not_eq_true', beq_iff_eq,
      List.all_eq_true, List.mem_range] at hstay
    obtain ⟨⟨⟨hstate, hleft⟩, hlength⟩, hfew⟩ := hstay
    have hlife := (Life.vacant 0 {}).live hlive
    obtain ⟨hgrant, -, hnames, -⟩ := hlife.names_distinct fun channel ↦ by
      have hchannel := hfew channel.toNat channel.toNat_lt
      rwa [UInt8.ofNat_toNat] at hchannel
    exact ⟨account, peer, hlife, hlength, hnames, hgrant hstate hleft⟩

end Peer

end ReliableDatagram
