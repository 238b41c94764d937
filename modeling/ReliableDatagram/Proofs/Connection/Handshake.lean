import ReliableDatagram.Proofs.Connection.Conversation
import ReliableDatagram.Proofs.Peer.Opening

/-!
# Sides of a handshake

A side of a handshake waits for the connection on certain terms and then reports it, once, or
loses it. While it waits, its window follows the bandwidths that the other side announces. A
side that has asked for the connection and that nothing has reached yet says its request,
announcements and perhaps farewell, under one challenge.
-/

namespace ReliableDatagram

/-- The bandwidths at which a host receives and sends; 0 is unlimited. -/
structure Caps where
  incoming : UInt32
  outgoing : UInt32
deriving DecidableEq, Repr

def Context.caps (context : Context) : Caps :=
  ⟨context.incomingBandwidth, context.outgoingBandwidth⟩

def Command.caps? (command : Command) : Option Caps :=
  match command.body with
  | .bandwidthLimit incoming outgoing => some ⟨incoming, outgoing⟩
  | _ => none

theorem Command.caps?_eq_none {command : Command} (h : command.tag ≠ .bandwidthLimit) :
    command.caps? = none := by
  unfold caps?
  split
  · rename_i hbody
    exact absurd (tag_of_body hbody) h
  · rfl

namespace Rules

/-- The host keeps its bandwidths. What its peer announces need not be these: a host announces
to each of its peers the share that is set aside for it. -/
def steady (caps : Caps) (configures : Prop) : Rules where
  moment context := context.caps = caps
  announces _ _ _ := True
  configures := configures

/-- Moreover, a peer that is not connected gives no announcement the number of its grant, so
that no other acknowledgement passes for the one of the grant. The numbers come back to it only
with the 2³²nd command. -/
def granting (caps : Caps) (configures : Prop) : Rules :=
  { steady caps configures with
    announces := fun peer _ _ ↦ peer.state = .connected ∨ peer.controlSequence ≠ 0 }

end Rules

namespace Party

variable {rules : Rules} {checksums : Bool} {reaching : List Bytes} {party after : Party}

/-! ## Waiting for the connection -/

/-- How far a side has come with a connection that it waits for in this state and on such
terms: it waits, it has lost the connection, or it has reported it once, on agreed terms. -/
inductive Stands (waiting : PeerState) (before agreed : Terms → Prop) (party : Party) : Prop where
  /-- The connection is not complete. -/
  | waits (hstate : party.peer.state = waiting) (hterms : before party.peer.terms)
      (hreported : party.established = [])
  /-- The connection is over and was never complete. -/
  | lost (hstate : party.peer.state.isActive = false) (hreported : party.established = [])
  /-- The connection was complete. -/
  | joined {terms : Terms} (hagreed : agreed terms) (hreported : party.established = [terms])
      (hstate : party.peer.state.isHandshaking = false)

variable {waiting : PeerState} {before agreed : Terms → Prop}

theorem Stands.of_reported (h : Stands waiting before agreed party)
    (hnone : party.established = []) :
    party.peer.state = waiting ∧ before party.peer.terms ∨ party.peer.state.isActive = false := by
  cases h with
  | waits hstate hterms _ => exact .inl ⟨hstate, hterms⟩
  | lost hstate _ => exact .inr hstate
  | joined _ hreported _ =>
    rw [hnone] at hreported
    cases hreported

theorem Stands.waits_of_isHandshaking (h : Stands waiting before agreed party)
    (hstate : party.peer.state.isHandshaking = true) :
    party.peer.state = waiting ∧ before party.peer.terms ∧ party.established = [] := by
  cases h with
  | waits hwaiting hterms hreported => exact ⟨hwaiting, hterms, hreported⟩
  | lost hover _ =>
    rw [PeerState.isHandshaking_of_not_active hover] at hstate
    cases hstate
  | joined _ _ hsettled =>
    rw [hsettled] at hstate
    cases hstate

theorem Stands.agreed_of_mem (h : Stands waiting before agreed party) {terms : Terms}
    (hmem : terms ∈ party.established) : agreed terms := by
  cases h with
  | waits _ _ hnone =>
    rw [hnone] at hmem
    cases hmem
  | lost _ hnone =>
    rw [hnone] at hmem
    cases hmem
  | joined hagreed hreported _ =>
    rw [hreported] at hmem
    rw [List.mem_singleton.mp hmem]
    exact hagreed

/-- A side that has reported nothing is not connected. -/
theorem Stands.ne_connected (h : Stands waiting before agreed party)
    (hwaiting : waiting.isHandshaking = true) (hnone : party.established = []) :
    party.peer.state ≠ .connected := by
  intro hconnected
  rcases h.of_reported hnone with ⟨hstate, -⟩ | hover
  · rw [← hstate, hconnected] at hwaiting
    cases hwaiting
  · rw [hconnected] at hover
    cases hover

/-- Nothing is reported, and a side that goes on waiting keeps to such terms. -/
theorem Stands.frame (h : Stands waiting before agreed party)
    (hwaiting : waiting.isHandshaking = true) (hreported : after.established = party.established)
    (hstate : after.peer.state = party.peer.state ∨ after.peer.state.isActive = false ∨
      party.peer.state = .connected ∧ after.peer.state.isHandshaking = false)
    (hterms : party.peer.state = waiting → after.peer.state = waiting →
      before party.peer.terms → before after.peer.terms) : Stands waiting before agreed after := by
  cases h with
  | waits hbefore hkept hnone =>
    rw [hnone] at hreported
    rcases hstate with hsame | hover | ⟨hconnected, -⟩
    · rw [hbefore] at hsame
      exact .waits hsame (hterms hbefore hsame hkept) hreported
    · exact .lost hover hreported
    · rw [← hbefore, hconnected] at hwaiting
      cases hwaiting
  | lost hbefore hnone =>
    rw [hnone] at hreported
    rcases hstate with hsame | hover | ⟨hconnected, -⟩
    · exact .lost (hsame ▸ hbefore) hreported
    · exact .lost hover hreported
    · rw [hconnected] at hbefore
      cases hbefore
  | joined hagreed hjoined hbefore =>
    refine .joined hagreed (hreported.trans hjoined) ?_
    rcases hstate with hsame | hover | ⟨-, hleft⟩
    · exact hsame ▸ hbefore
    · exact PeerState.isHandshaking_of_not_active hover
    · exact hleft

/-- A side that does not wait for the connection reports nothing more by what it hears. -/
theorem Stands.hear_of_settled (h : Stands waiting before agreed party)
    (hwaiting : waiting.isHandshaking = true) (hsettled : party.peer.state.isHandshaking = false)
    {command : Command} {context : Context} {event : Option PeerEvent} {peer : Peer}
    (hreacts : party.peer.Reacts command context event peer) :
    Stands waiting before agreed (party.hear command event peer) ∧
      (party.hear command event peer).established = party.established := by
  have hevent : event ≠ some .connected ∧ (peer.state = party.peer.state ∨
      peer.state.isActive = false ∨
        party.peer.state = .connected ∧ peer.state.isHandshaking = false) := by
    cases hreacts with
    | same _ _ hstate => exact ⟨by simp, .inl hstate⟩
    | limited _ _ hstate => exact ⟨by simp, .inl hstate⟩
    | throttled _ hstate => exact ⟨by simp, .inl hstate⟩
    | ended hevent hstate =>
      refine ⟨hevent, .inr (hstate.imp_right fun ⟨hconnected, hleft⟩ ↦ ⟨hconnected, ?_⟩)⟩
      rw [hleft]
      rfl
    | confirmed hbefore =>
      rw [hbefore] at hsettled
      cases hsettled
    | granted hbefore =>
      rw [hbefore] at hsettled
      cases hsettled
  have hreported : (party.hear command event peer).established = party.established := by
    rw [Party.hear, if_neg hevent.1, List.append_nil]
  refine ⟨h.frame hwaiting hreported hevent.2 fun hbefore ↦ ?_, hreported⟩
  rw [hbefore, hwaiting] at hsettled
  cases hsettled

/-- Unless it hears something, a side reports nothing and keeps to the terms that it waits
for. -/
theorem Stands.step (h : Stands waiting before agreed party)
    (hwaiting : waiting.isHandshaking = true)
    (hconfigures : rules.configures → party.established ≠ [])
    (hstep : Step rules checksums reaching party after) :
    Stands waiting before agreed after ∧ after.established = party.established ∨
      ∃ datagram ∈ reaching, ∃ header command context event peer,
        Datagram.Carries checksums datagram header command ∧
          party.peer.handle header command context = .ok (event, peer) ∧
            after = party.hear command event peer := by
  cases hstep.effect with
  | kept _ hreported _ hstate hterms =>
    refine .inl ⟨h.frame hwaiting hreported hstate fun _ hafter hkept ↦ ?_, hreported⟩
    have hactive := PeerState.isActive_of_isHandshaking hwaiting
    rw [hterms (by rw [hafter, hactive])]
    exact hkept
  | configured hallowed hafter =>
    subst hafter
    refine .inl ⟨h.frame hwaiting rfl (.inl (Peer.queueControl_state ..)) fun hbefore ↦ ?_, rfl⟩
    cases h with
    | waits _ _ hnone => exact absurd hnone (hconfigures hallowed)
    | lost _ hnone => exact absurd hnone (hconfigures hallowed)
    | joined _ _ hsettled =>
      rw [hbefore, hwaiting] at hsettled
      cases hsettled
  | heard _ hdatagram hcarries hhandle hafter =>
    exact .inr ⟨_, hdatagram, _, _, _, _, _, hcarries, hhandle, hafter⟩

/-! ## Announced bandwidths -/

/-- The bandwidths that the other side has announced last, as far as this side has heard, or
else these. -/
def lastCaps (party : Party) (initial : Caps) : Caps :=
  (party.heard.filterMap Command.caps?).getLastD initial

theorem lastCaps_hear (party : Party) (command : Command) (event : Option PeerEvent) (peer : Peer)
    (initial : Caps) : (party.hear command event peer).lastCaps initial =
      command.caps?.getD (party.lastCaps initial) := by
  rw [lastCaps, hear, List.filterMap_append]
  cases hcaps : command.caps? with
  | none => simp [hcaps, lastCaps]
  | some caps => simp [hcaps]

/-- As long as this side waits for the connection, its window is the one that the incoming
bandwidth announced last and its own outgoing one buy. -/
def Follows (own initial : Caps) (party : Party) : Prop :=
  party.peer.state.isHandshaking = true →
    party.peer.settings.peerWindow (party.lastCaps initial).incoming own.outgoing =
      .ok party.peer.window

variable {own initial : Caps}

theorem Follows.of_terms (h : Follows own initial party)
    (hcaps : after.lastCaps initial = party.lastCaps initial)
    (hsame : after.peer.state.isHandshaking = true → party.peer.state.isHandshaking = true ∧
      after.peer.settings = party.peer.settings ∧ after.peer.window = party.peer.window) :
    Follows own initial after := by
  intro hwaiting
  obtain ⟨hbefore, hsettings, hwindow⟩ := hsame hwaiting
  rw [hcaps, hsettings, hwindow]
  exact h hbefore

theorem Follows.hear (h : Follows own initial party) {command : Command} {context : Context}
    {event : Option PeerEvent} {peer : Peer} (hown : context.caps = own)
    (hreacts : party.peer.Reacts command context event peer) :
    Follows own initial (party.hear command event peer) := by
  have hcaps := party.lastCaps_hear command event peer initial
  have hleaves (hstate : peer.state.isHandshaking = false) :
      Follows own initial (party.hear command event peer) := fun hwaiting ↦ by
    rw [show peer.state.isHandshaking = true from hwaiting] at hstate
    cases hstate
  cases hreacts with
  | same hplain _ hstate hterms =>
    rw [Command.caps?_eq_none (Command.tag_of_not_configures hplain).1] at hcaps
    exact h.of_terms hcaps fun hwaiting ↦ ⟨hstate ▸ hwaiting, congrArg Terms.settings hterms,
      congrArg Terms.window hterms⟩
  | confirmed _ _ _ _ _ hstate => exact hleaves (by rw [hstate]; rfl)
  | granted _ _ _ _ _ hstate => exact hleaves (by rw [hstate]; rfl)
  | ended _ hstate =>
    rcases hstate with hover | ⟨-, hleft⟩
    · exact hleaves (PeerState.isHandshaking_of_not_active hover)
    · exact hleaves (by rw [hleft]; rfl)
  | @limited _ incoming outgoing window hbody hwindow _ hterms =>
    intro _
    have hsettings : peer.settings = party.peer.settings := congrArg Terms.settings hterms
    have hbought : peer.window = window := congrArg Terms.window hterms
    have houtgoing : context.outgoingBandwidth = own.outgoing := congrArg Caps.outgoing hown
    rw [hcaps, Command.caps?, hbody, ← houtgoing]
    change peer.settings.peerWindow incoming _ = .ok peer.window
    rw [hsettings, hbought]
    exact hwindow
  | throttled hbody hstate hterms =>
    have hunlimited : command.tag ≠ .bandwidthLimit := by
      rw [Command.tag_of_body hbody]
      exact fun htag ↦ by cases htag
    rw [Command.caps?_eq_none hunlimited] at hcaps
    exact h.of_terms hcaps fun hwaiting ↦ ⟨hstate ▸ hwaiting, congrArg Terms.settings hterms,
      congrArg Terms.window hterms⟩

theorem Follows.step (h : Follows own initial party)
    (hmoment : ∀ context, rules.moment context → context.caps = own)
    (hstep : Step rules checksums reaching party after) : Follows own initial after := by
  cases hstep.effect with
  | kept hheard _ _ hstate hterms =>
    refine h.of_terms (by rw [lastCaps, lastCaps, hheard]) fun hwaiting ↦ ?_
    have hkept := hterms (PeerState.isActive_of_isHandshaking hwaiting)
    refine ⟨?_, congrArg Terms.settings hkept, congrArg Terms.window hkept⟩
    rcases hstate with hsame | hover | ⟨-, hleft⟩
    · exact hsame ▸ hwaiting
    · rw [PeerState.isHandshaking_of_not_active hover] at hwaiting
      cases hwaiting
    · rw [hleft] at hwaiting
      cases hwaiting
  | @configured parameters _ hafter =>
    subst hafter
    have hstate : (party.peer.configureThrottle parameters).state = party.peer.state :=
      Peer.queueControl_state ..
    have hterms : (party.peer.configureThrottle parameters).terms =
        { party.peer.terms with throttle := parameters } := Peer.terms_queueControl ..
    exact h.of_terms rfl fun hwaiting ↦ ⟨hstate ▸ hwaiting, congrArg Terms.settings hterms,
      congrArg Terms.window hterms⟩
  | heard hallowed _ _ hhandle hafter =>
    subst hafter
    exact h.hear (hmoment _ hallowed) (Peer.handle_reacts hhandle)

theorem Follows.steps (h : Follows own initial party)
    (hmoment : ∀ context, rules.moment context → context.caps = own)
    (hsteps : Relation.ReflTransGen (Step rules checksums reaching) party after) :
    Follows own initial after := by
  induction hsteps with
  | refl => exact h
  | tail _ hstep ih => exact ih.step hmoment hstep

/-- What is reported is reported upon hearing a command, on the terms that it leads to. -/
theorem Step.exists_hear (hstep : Step rules checksums reaching party after) {terms : Terms}
    (hreported : after.established = party.established ++ [terms]) :
    ∃ datagram ∈ reaching, ∃ header command context peer,
      Datagram.Carries checksums datagram header command ∧
        party.peer.Reacts command context (some .connected) peer ∧ terms = peer.terms := by
  cases hstep.effect with
  | kept _ hsame =>
    rw [hsame] at hreported
    simp at hreported
  | configured _ hafter =>
    rw [hafter, issue] at hreported
    simp at hreported
  | @heard datagram header command context event peer _ hdatagram hcarries hhandle hafter =>
    rw [hafter, Party.hear, List.append_cancel_left_eq] at hreported
    split at hreported
    · rename_i hevent
      rw [hevent] at hhandle
      exact ⟨datagram, hdatagram, header, command, context, peer, hcarries,
        Peer.handle_reacts hhandle, (List.cons.inj hreported).1.symm⟩
    · cases hreported

/-! ## Asking alone -/

/-- A side that nothing has reached yet: it says its request, announces bandwidths and perhaps
says farewell, all under one challenge. -/
structure Requests (request : Command) (asked : Terms) (party : Party) : Prop where
  settings : party.peer.settings = asked.settings
  stands : party.Stands .connecting (· = asked) fun _ ↦ False
  utters : ∀ command, party.Utters command →
    command = request ∨ command.isFarewell = true ∨ command.tag = .bandwidthLimit
  challenge : ∀ datagram ∈ party.composed, ∀ header command,
    Datagram.Carries party.peer.settings.checksums datagram header command →
      header.challenge = asked.challenge

theorem Requests.reported {request : Command} {asked : Terms} (h : Requests request asked party) :
    party.established = [] := by
  cases h.stands with
  | waits _ _ hnone => exact hnone
  | lost _ hnone => exact hnone
  | joined hagreed => exact hagreed.elim

/-- Nothing else asks for a connection. -/
theorem Requests.eq_request {request command : Command} {asked : Terms}
    (h : Requests request asked party) (hutters : party.Utters command)
    (htag : command.tag = .connect) : command = request := by
  rcases h.utters command hutters with hsame | hfarewell | hannounces
  · exact hsame
  · exact absurd htag (Command.tag_of_isRoutine (Command.isRoutine_of_isFarewell hfarewell)).2.1
  · cases htag.symm.trans hannounces

theorem requests_of_asked {slot peer : Peer} {count : Nat} {window challenge : UInt32}
    {context : Context} (h : slot.Asked count window challenge context peer) :
    Requests
      ⟨controlChannel, Command.acknowledgeFlag, 1, .connect (slot.offer count window context)⟩
      (slot.askedTerms count window challenge) { peer := peer } where
  settings := congrArg Terms.settings h.terms
  stands := .waits h.state h.terms rfl
  utters command hutters := by
    rcases hutters with ⟨datagram, hdatagram, -⟩ | ⟨acknowledgement, hmem, -⟩ |
      ⟨outgoing, hmem, -⟩ | hmem
    · cases hdatagram
    · rw [h.acknowledgements] at hmem
      cases hmem
    · rw [h.unreliable] at hmem
      cases hmem
    · rw [h.outstanding] at hmem
      exact .inl (List.mem_singleton.mp hmem)
  challenge datagram hdatagram := by cases hdatagram

theorem Requests.step {request : Command} {asked : Terms} {caps : Caps}
    (h : Requests request asked party)
    (hstep : Step (.steady caps False) checksums [] party after) :
    Requests request asked after := by
  have hunconnected := h.stands.ne_connected rfl h.reported
  have hsettings := hstep.settings
  refine {
    settings := hsettings.trans h.settings
    stands := ?_
    utters := fun command hutters ↦ ?_
    challenge := ?_ }
  · rcases h.stands.step rfl False.elim hstep with ⟨hstands, -⟩ | ⟨datagram, hdatagram, -⟩
    · exact hstands
    · cases hdatagram
  · rcases hstep.utters hutters with hold | hnew
    · exact h.utters command hold
    · cases hnew with
      | routine hconnected => exact absurd hconnected hunconnected
      | farewell hfarewell => exact .inr (.inl hfarewell)
      | announced _ _ hbody => exact .inr (.inr (Command.tag_of_body hbody))
      | configured _ hallowed => exact hallowed.elim
      | acknowledged hdatagram => cases hdatagram
  · intro datagram hdatagram header command hcarries
    rw [hsettings] at hcarries
    have hold (hbefore : datagram ∈ party.composed) : header.challenge = asked.challenge :=
      h.challenge datagram hbefore header command hcarries
    cases hstep with
    | operate _ => exact hold hdatagram
    | announce _ => exact hold hdatagram
    | configure _ => exact hold hdatagram
    | hear _ hreaching => cases hreaching
    | @compose now check =>
      obtain ⟨-, -, -, -, hcomposed⟩ := party.compose_frame now check
      rcases hcomposed datagram hdatagram with hbefore | hnew
      · exact hold hbefore
      obtain ⟨commands, hreads, -⟩ := hcarries
      rcases h.stands.of_reported h.reported with ⟨-, hterms⟩ | hover
      · rcases party.peer.compose_draws now check hunconnected with
          ⟨hgone, -⟩ | ⟨-, _, -, hcontent⟩
        · rw [hgone] at hnew
          cases hnew
        · rw [(hcontent datagram hnew header commands hreads).1]
          exact congrArg Terms.challenge hterms
      · rw [Peer.compose_of_not_active hover] at hnew
        cases hnew

theorem Requests.steps {request : Command} {asked : Terms} {caps : Caps}
    (h : Requests request asked party)
    (hsteps : Relation.ReflTransGen (Step (.steady caps False) checksums []) party after) :
    Requests request asked after := by
  induction hsteps with
  | refl => exact h
  | tail _ hstep ih => exact ih.step hstep

end Party

end ReliableDatagram
