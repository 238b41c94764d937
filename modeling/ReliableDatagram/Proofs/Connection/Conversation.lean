import ReliableDatagram.Proofs.Connection.Replay
import ReliableDatagram.Proofs.Peer.Operations

/-!
# Conversations

A conversation is what two peers say to each other over a network that loses, repeats and
reorders datagrams as it likes. Where a connection is about the data that it carries, a
conversation is about what its ends settle: each side keeps as its history what it has asked of
the other one, what it has heard, and on which terms it became connected. Rules restrict what
the applications ask for and in which contexts commands are heard. The commands of a datagram
are heard one by one, so that whole datagrams are covered, and so is whatever comes between two
of their commands.
-/

namespace ReliableDatagram

/-- The parameters after a command was issued, which may configure others. -/
def ThrottleParameters.follow (parameters : ThrottleParameters) (command : Command) :
    ThrottleParameters :=
  match command.body with
  | .throttleConfigure configured => configured
  | _ => parameters

theorem PeerState.isHandshaking_of_not_active {state : PeerState} (h : state.isActive = false) :
    state.isHandshaking = false := by
  cases state <;> simp_all [isActive, isHandshaking]

theorem PeerState.isActive_of_isHandshaking {state : PeerState} (h : state.isHandshaking = true) :
    state.isActive = true := by
  cases state <;> simp_all [isActive, isHandshaking]

def Datagram.Carries (checksums : Bool) (datagram : Bytes) (header : Header) (command : Command) :
    Prop :=
  ∃ commands, Datagram.Reads checksums datagram header commands ∧ command ∈ commands

structure Party where
  peer : Peer
  composed : List Bytes := []
  /-- The commands by which this side has asked the other one to take settings over, in
  order. -/
  issued : List Command := []
  /-- The commands that were heard, in order. -/
  heard : List Command := []
  /-- The terms of the connection each time it was reported to be complete. -/
  established : List Terms := []

/-- What the applications may ask for, and in which contexts commands are heard. -/
structure Rules where
  /-- The contexts in which commands are heard. -/
  moment : Context → Prop
  announces : Peer → UInt32 → UInt32 → Prop
  configures : Prop

namespace Rules

def free : Rules where
  moment _ := True
  announces _ _ _ := True
  configures := True

end Rules

namespace Party

/-- Asks the other side to take settings over, by which the peer becomes `after`. -/
def issue (party : Party) (after : Peer) : Party :=
  { party with
    peer := after
    issued := party.issued ++ (after.reliable.drop party.peer.reliable.length).map (·.command) }

def compose (party : Party) (now : Stamp) (check : Bool) : Party :=
  match party.peer.compose now check with
  | (.ok (.datagram bytes), peer) =>
    { party with
      peer := peer
      composed := party.composed ++ [bytes] }
  | (_, peer) => { party with peer := peer }

/-- Hears a command, by which the peer becomes `after` and reports an event. -/
def hear (party : Party) (command : Command) (event : Option PeerEvent) (after : Peer) : Party :=
  { party with
    peer := after
    heard := party.heard ++ [command]
    established :=
      party.established ++ if event = some .connected then [after.terms] else [] }

/-- What one side can do under the rules, when these datagrams can reach it, with or without
trailers. -/
inductive Step (rules : Rules) (checksums : Bool) (reaching : List Bytes) :
    Party → Party → Prop where
  /-- The application or the host asks something of the peer. -/
  | operate {party : Party} {after : Peer} (hoperates : party.peer.Operates after) :
      Step rules checksums reaching party { party with peer := after }
  | announce {party : Party} {incoming outgoing : UInt32}
      (hallowed : rules.announces party.peer incoming outgoing) :
      Step rules checksums reaching party
        (party.issue (party.peer.announceBandwidth incoming outgoing))
  | configure {party : Party} {parameters : ThrottleParameters} (hallowed : rules.configures) :
      Step rules checksums reaching party (party.issue (party.peer.configureThrottle parameters))
  | compose {party : Party} {now : Stamp} {check : Bool} :
      Step rules checksums reaching party (party.compose now check)
  /-- A command is heard, be it for the first time or again. -/
  | hear {party : Party} {datagram : Bytes} {header : Header} {command : Command}
      {context : Context} {event : Option PeerEvent} {after : Peer}
      (hmoment : rules.moment context) (hdatagram : datagram ∈ reaching)
      (hcarries : Datagram.Carries checksums datagram header command)
      (hhandle : party.peer.handle header command context = .ok (event, after)) :
      Step rules checksums reaching party (party.hear command event after)

/-! ## What a side says -/

/-- The command is in a datagram that this side has composed, or waits in its queues. -/
def Utters (party : Party) (command : Command) : Prop :=
  (∃ datagram ∈ party.composed, ∃ header,
      Datagram.Carries party.peer.settings.checksums datagram header command) ∨
    party.peer.Holds command

inductive Adds (rules : Rules) (checksums : Bool) (reaching : List Bytes) (party after : Party)
    (command : Command) : Prop where
  /-- A connected peer sends something, or pings. -/
  | routine (hconnected : party.peer.state = .connected) (hroutine : command.isRoutine = true)
  /-- The peer leaves. -/
  | farewell (hfarewell : command.isFarewell = true)
  | announced {incoming outgoing : UInt32} (hissued : command ∈ after.issued)
      (hallowed : rules.announces party.peer incoming outgoing)
      (hbody : command.body = .bandwidthLimit incoming outgoing)
      (hsequence : command.sequence = party.peer.controlSequence + 1)
  | configured {parameters : ThrottleParameters} (hissued : command ∈ after.issued)
      (hallowed : rules.configures) (hbody : command.body = .throttleConfigure parameters)
  /-- A command that was heard is acknowledged. -/
  | acknowledged {datagram : Bytes} {header : Header} {heard : Command} {context : Context}
      {event : Option PeerEvent} (hdatagram : datagram ∈ reaching)
      (hcarries : Datagram.Carries checksums datagram header heard)
      (hhandle : party.peer.handle header heard context = .ok (event, after.peer))
      (hasks : heard.requiresAcknowledgement = true)
      (hallows : Peer.acknowledges after.peer.state heard.tag = true)
      (hcommand : command = (Acknowledgement.ofCommand heard header.sentTime).toCommand)

variable {rules : Rules} {checksums : Bool} {reaching : List Bytes} {party after : Party}
  {command : Command}

theorem compose_frame (party : Party) (now : Stamp) (check : Bool) :
    (party.compose now check).peer = (party.peer.compose now check).2 ∧
      (party.compose now check).issued = party.issued ∧
      (party.compose now check).heard = party.heard ∧
      (party.compose now check).established = party.established ∧
      ∀ datagram ∈ (party.compose now check).composed, datagram ∈ party.composed ∨
        (party.peer.compose now check).1 = .ok (.datagram datagram) := by
  unfold compose
  split
  · rename_i bytes peer hcompose
    rw [hcompose]
    refine ⟨rfl, rfl, rfl, rfl, fun datagram hdatagram ↦ ?_⟩
    rcases List.mem_append.mp hdatagram with hold | hnew
    · exact .inl hold
    · rw [List.mem_singleton.mp hnew]
      exact .inr rfl
  · rename_i hcompose
    rw [hcompose]
    exact ⟨rfl, rfl, rfl, rfl, fun datagram hdatagram ↦ .inl hdatagram⟩

/-- What is asked of the other side is recorded as it is queued. -/
theorem issue_queueControl (party : Party) (peer : Peer) (body : Body)
    (hreliable : peer.reliable = party.peer.reliable)
    (hsequence : peer.controlSequence = party.peer.controlSequence) :
    (party.issue (peer.queueControl body)).issued = party.issued ++
      [⟨controlChannel, Command.acknowledgeFlag, party.peer.controlSequence + 1, body⟩] := by
  rw [issue, Peer.queueControl_eq, ← hreliable, ← hsequence]
  simp

theorem Step.settings (h : Step rules checksums reaching party after) :
    after.peer.settings = party.peer.settings := by
  cases h with
  | operate hoperates => exact hoperates.abides.settings
  | announce _ => exact congrArg Terms.settings (Peer.terms_queueControl ..)
  | configure _ => exact congrArg Terms.settings (Peer.terms_queueControl ..)
  | @compose now check =>
    rw [(party.compose_frame now check).1]
    exact party.peer.settings_compose now check
  | hear _ _ _ hhandle =>
    have hsettings (terms : Terms) (h : terms = party.peer.terms) :
        terms.settings = party.peer.settings := by
      rw [h]
      rfl
    cases Peer.handle_reacts hhandle with
    | same _ _ _ hterms => exact hsettings _ hterms
    | confirmed _ _ _ _ _ _ hterms => exact hsettings _ hterms
    | granted _ _ _ _ _ _ hterms => exact congrArg Terms.settings hterms
    | ended _ _ _ hsame => exact hsame
    | limited _ _ _ hterms => exact congrArg Terms.settings hterms
    | throttled _ _ hterms => exact congrArg Terms.settings hterms

/-- What this side has asked of the other one is not forgotten. -/
theorem Step.issued_subset (h : Step rules checksums reaching party after) :
    party.issued ⊆ after.issued := by
  cases h with
  | announce _ => exact List.subset_append_left _ _
  | configure _ => exact List.subset_append_left _ _
  | @compose now check =>
    rw [(party.compose_frame now check).2.1]
    exact List.Subset.refl _
  | operate _ => exact List.Subset.refl _
  | hear _ _ _ _ => exact List.Subset.refl _

/-- What was reported is not forgotten. -/
theorem Step.established_subset (h : Step rules checksums reaching party after) :
    party.established ⊆ after.established := by
  cases h with
  | hear _ _ _ _ => exact List.subset_append_left _ _
  | @compose now check =>
    rw [(party.compose_frame now check).2.2.2.1]
    exact List.Subset.refl _
  | operate _ => exact List.Subset.refl _
  | announce _ => exact List.Subset.refl _
  | configure _ => exact List.Subset.refl _

/-- Whatever a side says, it has said or had in its queues before, or the step adds it. -/
theorem Step.utters (hstep : Step rules checksums reaching party after)
    (h : after.Utters command) :
    party.Utters command ∨ Adds rules checksums reaching party after command := by
  have hsettings := hstep.settings
  -- Only composing adds datagrams, so for all other steps the queues decide.
  have hqueues (hcomposed : after.composed = party.composed)
      (hholds : after.peer.Holds command → party.peer.Holds command ∨
        Adds rules checksums reaching party after command) :
      party.Utters command ∨ Adds rules checksums reaching party after command := by
    rcases h with hspoken | hholds'
    · rw [hcomposed, hsettings] at hspoken
      exact .inl (.inl hspoken)
    · exact (hholds hholds').imp_left .inr
  cases hstep with
  | operate hoperates =>
    refine hqueues rfl fun hafter ↦ ?_
    rcases hoperates.abides.holds hafter with hold | ⟨hconnected, hroutine⟩ | hfarewell
    · exact .inl hold
    · exact .inr (.routine hconnected hroutine)
    · exact .inr (.farewell hfarewell)
  | @announce incoming outgoing hallowed =>
    refine hqueues rfl fun hafter ↦ (Peer.queueControl_holds hafter).imp_right fun hnew ↦ ?_
    refine .announced ?_ hallowed (by rw [hnew]) (by rw [hnew])
    rw [Peer.announceBandwidth, issue_queueControl party party.peer _ rfl rfl, hnew]
    exact List.mem_append_right _ List.mem_cons_self
  | @configure parameters hallowed =>
    have hissued := party.issue_queueControl
      { party.peer with pacing := party.peer.pacing.configure parameters }
      (.throttleConfigure parameters) rfl rfl
    refine hqueues rfl fun hafter ↦ (Peer.queueControl_holds hafter).imp_right fun hnew ↦ ?_
    refine .configured ?_ hallowed (by rw [hnew])
    rw [Peer.configureThrottle, hissued, hnew]
    exact List.mem_append_right _ List.mem_cons_self
  | @compose now check =>
    obtain ⟨hpeer, -, -, -, hcomposed⟩ := party.compose_frame now check
    obtain ⟨hholds, hspoken⟩ := party.peer.compose_holds now check command
    have hdrawn (hfrom : party.peer.Holds command ∨
        party.peer.state = .connected ∧ command.isRoutine = true) : party.Utters command ∨
          Adds rules checksums reaching party (party.compose now check) command :=
      hfrom.imp .inr fun hping ↦ .routine hping.1 hping.2
    rcases h with ⟨datagram, hdatagram, header, commands, hreads, hmem⟩ | hafter
    · rw [hsettings] at hreads
      rcases hcomposed datagram hdatagram with hold | hnew
      · exact .inl (.inl ⟨datagram, hold, header, commands, hreads, hmem⟩)
      · exact hdrawn (hspoken datagram hnew header commands hreads hmem)
    · rw [hpeer] at hafter
      exact hdrawn (hholds hafter)
  | hear _ hdatagram hcarries hhandle =>
    refine hqueues rfl fun hafter ↦ (Peer.handle_holds hhandle hafter).imp_right ?_
    rintro ⟨hasks, hallows, hcommand⟩
    exact .acknowledged hdatagram hcarries hhandle hasks hallows hcommand

/-! ## What a step changes -/

/-- The throttle that this side has configured last, or else this one. -/
def lastThrottle (party : Party) (initial : ThrottleParameters) : ThrottleParameters :=
  party.issued.foldl ThrottleParameters.follow initial

theorem lastThrottle_issue (party : Party) (peer : Peer) (body : Body)
    (hreliable : peer.reliable = party.peer.reliable)
    (hsequence : peer.controlSequence = party.peer.controlSequence) (initial : ThrottleParameters) :
    (party.issue (peer.queueControl body)).lastThrottle initial =
      (party.lastThrottle initial).follow
        ⟨controlChannel, Command.acknowledgeFlag, party.peer.controlSequence + 1, body⟩ := by
  rw [lastThrottle, issue_queueControl party peer body hreliable hsequence, List.foldl_concat]
  rfl

/-- What a step does to the terms of a side and to what it has heard, configured and
reported. -/
inductive Effect (rules : Rules) (checksums : Bool) (reaching : List Bytes) (party after : Party) :
    Prop where
  /-- Nothing is heard, and the terms are kept unless the connection is over. -/
  | kept (hheard : after.heard = party.heard) (hreported : after.established = party.established)
      (hthrottle : ∀ initial, after.lastThrottle initial = party.lastThrottle initial)
      (hstate : after.peer.state = party.peer.state ∨ after.peer.state.isActive = false ∨
        party.peer.state = .connected ∧ after.peer.state.isHandshaking = false)
      (hterms : after.peer.state.isActive = true → after.peer.terms = party.peer.terms)
  | configured {parameters : ThrottleParameters} (hallowed : rules.configures)
      (hafter : after = party.issue (party.peer.configureThrottle parameters))
  | heard {datagram : Bytes} {header : Header} {command : Command} {context : Context}
      {event : Option PeerEvent} {peer : Peer} (hmoment : rules.moment context)
      (hdatagram : datagram ∈ reaching)
      (hcarries : Datagram.Carries checksums datagram header command)
      (hhandle : party.peer.handle header command context = .ok (event, peer))
      (hafter : after = party.hear command event peer)

theorem Step.effect (hstep : Step rules checksums reaching party after) :
    Effect rules checksums reaching party after := by
  cases hstep with
  | @operate peer hoperates =>
    have habides := hoperates.abides
    refine .kept rfl rfl (fun _ ↦ rfl) ?_ habides.terms
    refine habides.state.imp_right fun hstate ↦ hstate.imp_right fun ⟨hconnected, hleft⟩ ↦ ?_
    refine ⟨hconnected, ?_⟩
    rw [hleft]
    rfl
  | announce _ =>
    refine .kept rfl rfl (fun initial ↦ ?_) (.inl (Peer.queueControl_state ..)) fun _ ↦
      Peer.terms_queueControl ..
    exact party.lastThrottle_issue party.peer _ rfl rfl initial
  | configure hallowed => exact .configured hallowed rfl
  | @compose now check =>
    obtain ⟨hpeer, hissued, hheard, hreported, -⟩ := party.compose_frame now check
    have hthrottle (initial : ThrottleParameters) :
        (party.compose now check).lastThrottle initial = party.lastThrottle initial := by
      rw [lastThrottle, lastThrottle, hissued]
    rcases party.peer.compose_cases now check with ⟨-, hreset⟩ | ⟨hgoes, commands, hcomposes, -⟩
    · rw [hreset] at hpeer
      have hover : (party.compose now check).peer.state.isActive = false := by
        rw [hpeer]
        rfl
      refine .kept hheard hreported hthrottle (.inr (.inl hover)) fun hactive ↦ ?_
      rw [hover] at hactive
      cases hactive
    · refine .kept hheard hreported hthrottle ?_ fun _ ↦ ?_
      · rw [hpeer]
        refine hcomposes.state.imp_right fun hzombie ↦ .inl ?_
        rw [hzombie]
        rfl
      · rw [hpeer]
        exact Peer.terms_compose _ _ _ hgoes
  | hear hmoment hdatagram hcarries hhandle =>
    exact .heard hmoment hdatagram hcarries hhandle rfl

/-! ## Moves -/

inductive Move where
  | announce (incoming outgoing : UInt32)
  | configure (parameters : ThrottleParameters)
  | compose (now : Stamp) (check : Bool)
  /-- Hears a command of a datagram of the other side, both named by their places. -/
  | hear (datagram place : Nat) (context : Context)
deriving DecidableEq, Repr

/-- What becomes of a side by a move, when these datagrams can reach it; `none` if the move is
not possible. -/
def move? (reaching : List Bytes) (party : Party) : Move → Option Party
  | .announce incoming outgoing =>
    some (party.issue (party.peer.announceBandwidth incoming outgoing))
  | .configure parameters => some (party.issue (party.peer.configureThrottle parameters))
  | .compose now check => some (party.compose now check)
  | .hear datagram place context =>
    match reaching[datagram]? with
    | none => none
    | some bytes =>
      match Datagram.decode bytes with
      | .error _ => none
      | .ok (header, commands) =>
        match commands[place]? with
        | none => none
        | some command =>
          match party.peer.handle header command context with
          | .error _ => none
          | .ok (event, after) => some (party.hear command event after)

end Party

def Rules.Permits (rules : Rules) (peer : Peer) : Party.Move → Prop
  | .announce incoming outgoing => rules.announces peer incoming outgoing
  | .configure _ => rules.configures
  | .compose _ _ => True
  | .hear _ _ context => rules.moment context

theorem Party.step_of_move? {rules : Rules} {reaching : List Bytes} {party after : Party}
    {move : Move} (hpermits : rules.Permits party.peer move)
    (h : party.move? reaching move = some after) (checksums : Bool) :
    Step rules checksums reaching party after := by
  cases move with
  | announce incoming outgoing =>
    cases h
    exact .announce hpermits
  | configure parameters =>
    cases h
    exact .configure hpermits
  | compose now check =>
    cases h
    exact .compose
  | hear datagram place context =>
    rw [move?] at h
    split at h
    · cases h
    · rename_i bytes hbytes
      split at h
      · cases h
      · rename_i header commands hdecode
        split at h
        · cases h
        · rename_i command hcommand
          split at h
          · cases h
          · rename_i event peer hhandle
            cases h
            exact .hear hpermits (List.mem_of_getElem? hbytes)
              ⟨commands, ⟨bytes, .inl rfl, hdecode⟩, List.mem_of_getElem? hcommand⟩ hhandle

structure Conversation where
  near : Party
  far : Party

namespace Conversation

/-- What can happen in a conversation: either side does something that its rules allow at that
moment, and what the other one has composed can reach it. -/
inductive Step (nearRules farRules : Conversation → Rules) :
    Conversation → Conversation → Prop where
  | near {near far after : Party} (hstep : Party.Step (nearRules ⟨near, far⟩)
      far.peer.settings.checksums far.composed near after) :
      Step nearRules farRules ⟨near, far⟩ ⟨after, far⟩
  | far {near far after : Party} (hstep : Party.Step (farRules ⟨near, far⟩)
      near.peer.settings.checksums near.composed far after) :
      Step nearRules farRules ⟨near, far⟩ ⟨near, after⟩

abbrev Run (nearRules farRules : Conversation → Rules) :
    Conversation → Conversation → Prop :=
  Relation.ReflTransGen (Step nearRules farRules)

open Connection (Side)

def Permits (nearRules farRules : Conversation → Rules) (conversation : Conversation) :
    Side × Party.Move → Prop
  | (.near, move) => (nearRules conversation).Permits conversation.near.peer move
  | (.far, move) => (farRules conversation).Permits conversation.far.peer move

def move? (conversation : Conversation) : Side × Party.Move → Option Conversation
  | (.near, move) =>
    (conversation.near.move? conversation.far.composed move).map (⟨·, conversation.far⟩)
  | (.far, move) =>
    (conversation.far.move? conversation.near.composed move).map (⟨conversation.near, ·⟩)

/-- What becomes of a conversation by some moves, one after the other. -/
def moves? (conversation : Conversation) : List (Side × Party.Move) → Option Conversation
  | [] => some conversation
  | move :: rest =>
    match conversation.move? move with
    | none => none
    | some after => after.moves? rest

variable {nearRules farRules : Conversation → Rules} {conversation after : Conversation}

theorem step_of_move? {move : Side × Party.Move}
    (hpermits : conversation.Permits nearRules farRules move)
    (h : conversation.move? move = some after) : Step nearRules farRules conversation after := by
  obtain ⟨side, move⟩ := move
  cases side with
  | near =>
    obtain ⟨party, hparty, rfl⟩ := Option.map_eq_some_iff.mp h
    exact .near (Party.step_of_move? hpermits hparty _)
  | far =>
    obtain ⟨party, hparty, rfl⟩ := Option.map_eq_some_iff.mp h
    exact .far (Party.step_of_move? hpermits hparty _)

/-- Moves that the rules allow at any moment make a run. -/
theorem run_of_moves? {moves : List (Side × Party.Move)}
    (hpermits : ∀ move ∈ moves, ∀ conversation, Permits nearRules farRules conversation move)
    (h : conversation.moves? moves = some after) : Run nearRules farRules conversation after := by
  induction moves generalizing conversation with
  | nil =>
    cases h
    exact .refl
  | cons move rest ih =>
    rw [moves?] at h
    split at h
    · cases h
    · rename_i hmove
      refine .head (step_of_move? (hpermits move List.mem_cons_self _) hmove) ?_
      exact ih (fun other hother ↦ hpermits other (List.mem_cons_of_mem _ hother)) h

end Conversation

end ReliableDatagram
