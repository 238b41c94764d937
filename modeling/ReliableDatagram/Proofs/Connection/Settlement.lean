import ReliableDatagram.Proofs.Connection.Handshake
import ReliableDatagram.Proofs.Negotiation
import ReliableDatagram.Proofs.Peer.Attempt

/-!
# What a handshake settles

One side asks for a connection and the other one grants it, both with the same settings. The
granting side gives the number of its grant to nothing else that waits for an acknowledgement,
and the asking side acknowledges that number only after it has accepted the grant. So the
granting side cannot report the connection first, and whatever the network does to the
datagrams, the terms that last are the same on both sides. Windows are left out here: they
follow what the sides announce.
-/

namespace ReliableDatagram

/-- The terms of two ends of a connection are those of one connection. -/
structure Terms.Agree (near far : Terms) : Prop where
  challenge : near.challenge = far.challenge
  channelCount : near.channelCount = far.channelCount
  mtu : near.mtu = far.mtu
  throttle : near.throttle = far.throttle
  near_remoteId : near.remoteId = far.id
  far_remoteId : far.remoteId = near.id

/-- The terms without those that an announcement changes. -/
def Terms.lasting (terms : Terms) : Terms :=
  { terms with
    window := 0
    incomingBandwidth := 0
    outgoingBandwidth := 0 }

/-- What the two sides of a handshake say of themselves. -/
structure Deal where
  /-- The terms on which the connection is asked for. -/
  asked : Terms
  answer : Handshake
  /-- The terms on which the connection is granted. -/
  granted : Terms

namespace Deal

def grant (deal : Deal) : Command :=
  ⟨controlChannel, Command.acknowledgeFlag, 1, .verifyConnect deal.answer⟩

/-- The asking side arrives at these terms when it accepts the grant. -/
def Accepts (deal : Deal) (terms : Terms) : Prop :=
  ∃ mtu, deal.asked.settings.clampMtu deal.answer.mtu = .ok mtu ∧
    deal.answer.channelCount.toNat = deal.asked.channelCount ∧
    deal.answer.throttle = deal.asked.throttle ∧
    terms.lasting = { deal.asked.lasting with
      remoteId := deal.answer.peer
      mtu := min mtu deal.asked.mtu }

/-- Both sides have said what they are to say under these settings, the granting one with this
incoming bandwidth. -/
structure Fair (settings : Settings) (incoming : UInt32) (deal : Deal) : Prop where
  asked_settings : deal.asked.settings = settings
  asked_mtu : deal.asked.mtu = settings.defaultMtu
  answer_peer : deal.answer.peer = deal.granted.id
  answer_mtu : deal.answer.mtu = deal.granted.mtu
  answer_window : settings.windowFor incoming = .ok deal.answer.window
  answer_channelCount : deal.answer.channelCount.toNat = deal.granted.channelCount
  answer_throttle : deal.answer.throttle = deal.granted.throttle
  granted_settings : deal.granted.settings = settings
  granted_challenge : deal.granted.challenge = deal.asked.challenge
  granted_remoteId : deal.granted.remoteId = deal.asked.id
  granted_mtu : settings.clampMtu settings.defaultMtu = .ok deal.granted.mtu

variable {settings : Settings} {incoming : UInt32} {deal : Deal} {near far : Terms}

/-- Whoever accepts a fair grant agrees with the one who has given it. -/
theorem Fair.agree (h : deal.Fair settings incoming) (hsound : settings.Sound)
    (haccepts : deal.Accepts near) (hgranted : far.lasting = deal.granted.lasting) :
    near.Agree far := by
  obtain ⟨mtu, hmtu, hcount, hthrottle, hnear⟩ := haccepts
  have hdefault : deal.granted.mtu = settings.defaultMtu := by
    have hgranted := h.granted_mtu
    rw [hsound.clampMtu_default, Except.ok.injEq] at hgranted
    exact hgranted.symm
  rw [h.asked_settings, h.answer_mtu, hdefault, hsound.clampMtu_default, Except.ok.injEq] at hmtu
  have hsize : min mtu deal.asked.mtu = deal.granted.mtu := by
    rw [← hmtu, h.asked_mtu, hdefault, UInt16.min_def, ite_self]
  have hfar {α : Type} (field : Terms → α) : field far.lasting = field deal.granted.lasting :=
    congrArg field hgranted
  exact {
    challenge := (congrArg Terms.challenge hnear).trans
      (h.granted_challenge.symm.trans (hfar Terms.challenge).symm)
    channelCount := (congrArg Terms.channelCount hnear).trans
      (hcount.symm.trans (h.answer_channelCount.trans (hfar Terms.channelCount).symm))
    mtu := (congrArg Terms.mtu hnear).trans (hsize.trans (hfar Terms.mtu).symm)
    throttle := (congrArg Terms.throttle hnear).trans
      (hthrottle.symm.trans (h.answer_throttle.trans (hfar Terms.throttle).symm))
    near_remoteId := (congrArg Terms.remoteId hnear).trans
      (h.answer_peer.trans (hfar Terms.id).symm)
    far_remoteId := (hfar Terms.remoteId).trans
      (h.granted_remoteId.trans (congrArg Terms.id hnear).symm) }

/-! ## What the sides say -/

/-- The command acknowledges the grant, or one that has its number. -/
def Confirms (deal : Deal) (command : Command) : Prop :=
  command.channel = deal.grant.channel ∧
    ∃ sentTime, command.body = .acknowledge deal.grant.sequence sentTime

/-- The granting side gives the number of its grant to nothing else that waits for an
acknowledgement, grants nothing else and does not configure the throttle. -/
structure Tame (deal : Deal) (command : Command) : Prop where
  unthrottled : command.tag ≠ .throttleConfigure
  granting : command.tag = .verifyConnect → command = deal.grant
  numbered : command.requiresAcknowledgement = true → command.channel = deal.grant.channel →
    command.sequence = deal.grant.sequence → command = deal.grant

theorem tame_grant (deal : Deal) : deal.Tame deal.grant where
  unthrottled := nofun
  granting _ := rfl
  numbered _ _ _ := rfl

end Deal

theorem Command.tame_of_isFarewell {command : Command} (h : command.isFarewell = true)
    (deal : Deal) : deal.Tame command := by
  obtain ⟨hconfigures, -, htag, -⟩ := tag_of_isRoutine (isRoutine_of_isFarewell h)
  rw [isFarewell, Bool.and_eq_true, Bool.not_eq_true'] at h
  refine ⟨(tag_of_not_configures hconfigures).2, fun hgrant ↦ absurd hgrant htag, fun hasks ↦ ?_⟩
  rw [h.2] at hasks
  cases hasks

/-- The acknowledgement of a command is not to be acknowledged itself. -/
theorem Acknowledgement.tame_toCommand (acknowledgement : Acknowledgement) (deal : Deal) :
    deal.Tame acknowledgement.toCommand := by
  refine ⟨nofun, nofun, fun hasks ↦ ?_⟩
  rw [Peer.requiresAcknowledgement_of_plain rfl] at hasks
  cases hasks

/-- An announcement takes the number of the grant only if the numbers have begun anew. -/
theorem Command.tame_of_announces {command : Command} {incoming outgoing control : UInt32}
    (hbody : command.body = .bandwidthLimit incoming outgoing)
    (hsequence : command.sequence = control + 1) (hcontrol : control ≠ 0) (deal : Deal) :
    deal.Tame command := by
  have htag := tag_of_body hbody
  refine ⟨fun h ↦ ?_, fun h ↦ ?_, fun _ _ hnumber ↦ ?_⟩
  · cases htag.symm.trans h
  · cases htag.symm.trans h
  · rw [hsequence] at hnumber
    have hwrapped : control + 1 = 0 + 1 := hnumber
    exact absurd ((UInt32.add_left_inj 1).mp hwrapped) hcontrol

/-! ## Conversations that settle a connection -/

namespace Conversation

/-- Both sides have reported the connection. -/
def IsComplete (conversation : Conversation) : Prop :=
  conversation.near.established ≠ [] ∧ conversation.far.established ≠ []

/-- A handshake as it begins: this side has asked for the connection, alone so far, and the
other one grants it upon the request in a datagram of this side. -/
inductive Opens (settings : Settings) (nearCaps farCaps : Caps) : Conversation → Prop where
  | intro {slot peer : Peer} {address source : Address} {channelCount : Nat} {challenge : UInt32}
      {context moment : Context} {near : Party} {other granted : Peer} {datagram : Bytes}
      {header : Header} {command : Command} {offer : Handshake}
      (hslot : slot.settings = settings) (hcontext : context.caps = nearCaps)
      (hconnect : slot.connect address channelCount challenge context = .ok peer)
      (halone : Relation.ReflTransGen (Party.Step (.steady nearCaps False) settings.checksums [])
        { peer := peer } near)
      (hdatagram : datagram ∈ near.composed)
      (hcarries : Datagram.Carries settings.checksums datagram header command)
      (hbody : command.body = .connect offer) (hother : other.settings = settings)
      (hmoment : moment.caps = farCaps)
      (haccept : other.accept source header command offer moment = .ok granted) :
      Opens settings nearCaps farCaps ⟨near, { peer := granted }⟩

/-- A handshake goes on. The throttle is not configured before both sides have reported the
connection. Each side may announce whatever it likes, only not under the number of the grant
while that waits for its acknowledgement. -/
abbrev Advances (nearCaps farCaps : Caps) : Conversation → Conversation → Prop :=
  Step (fun conversation ↦ .steady nearCaps conversation.IsComplete)
    (fun conversation ↦ .granting farCaps conversation.IsComplete)

def Arises (settings : Settings) (nearCaps farCaps : Caps) (conversation : Conversation) : Prop :=
  ∃ start, Opens settings nearCaps farCaps start ∧
    Relation.ReflTransGen (Advances nearCaps farCaps) start conversation

/-- How far the two sides have come with the deal, and what they say as long as one of them
waits. -/
structure Settling (deal : Deal) (conversation : Conversation) : Prop where
  near : conversation.near.Stands .connecting (·.lasting = deal.asked.lasting) deal.Accepts
  far : conversation.far.Stands .acknowledgingConnect (·.lasting = deal.granted.lasting)
    (·.lasting = deal.granted.lasting)
  precedes : conversation.far.established ≠ [] → conversation.near.established ≠ []
  silent : conversation.near.established = [] →
    ∀ command, conversation.near.Utters command → ¬ deal.Confirms command
  unthrottled : conversation.far.established = [] →
    ∀ command, conversation.near.Utters command → command.tag ≠ .throttleConfigure
  tame : conversation.far.established = [] →
    ∀ command, conversation.far.Utters command → deal.Tame command

variable {settings : Settings} {nearCaps farCaps : Caps} {deal : Deal}
  {conversation : Conversation}

theorem Arises.step (h : Arises settings nearCaps farCaps conversation) {after : Conversation}
    (hstep : Advances nearCaps farCaps conversation after) :
    Arises settings nearCaps farCaps after := by
  obtain ⟨start, hopens, hrun⟩ := h
  exact ⟨start, hopens, hrun.tail hstep⟩

theorem Opens.settling (h : Opens settings nearCaps farCaps conversation) :
    ∃ deal : Deal, deal.Fair settings farCaps.incoming ∧ conversation.Settling deal := by
  obtain ⟨hslot, hcontext, hconnect, halone, hdatagram, hcarries, hbody, hother, hmoment,
    haccept⟩ := h
  rename_i slot peer address source channelCount challenge context moment near other granted
    datagram header command offer
  obtain ⟨count, window, -, -, hasked⟩ := Peer.connect_eq_ok hconnect
  have hrequests := (Party.requests_of_asked hasked).steps halone
  obtain ⟨mtu, grantedWindow, answered, hmtu, -, hanswered, hgranted⟩ := Peer.accept_eq_ok haccept
  have hchecksums : near.peer.settings = settings := hrequests.settings.trans hslot
  rw [← hchecksums] at hcarries
  have hrequest := hrequests.eq_request (.inl ⟨datagram, hdatagram, header, hcarries⟩)
    (Command.tag_of_body hbody)
  have hoffer : offer = slot.offer count window context := by
    rw [hrequest] at hbody
    exact (Body.connect.inj hbody).symm
  have hchallenge : header.challenge = challenge :=
    hrequests.challenge datagram hdatagram header command hcarries
  subst hoffer
  subst hmoment
  rw [hother] at hmtu hanswered
  have hoffered : settings.clampMtu (slot.offer count window context).mtu =
      settings.clampMtu settings.defaultMtu := by
    rw [Peer.offer, hslot]
  refine ⟨{
    asked := slot.askedTerms count window challenge
    answer := other.answer mtu answered (slot.offer count window context) moment
    granted := other.grantedTerms header.challenge (slot.offer count window context) mtu
      grantedWindow }, {
    asked_settings := hslot
    asked_mtu := congrArg Settings.defaultMtu hslot
    answer_peer := rfl
    answer_mtu := rfl
    answer_window := hanswered
    answer_channelCount := rfl
    answer_throttle := rfl
    granted_settings := hother
    granted_challenge := hchallenge
    granted_remoteId := rfl
    granted_mtu := hoffered.symm.trans hmtu }, {
    near := ?_
    far := .waits hgranted.state (congrArg Terms.lasting hgranted.terms) rfl
    precedes := fun h ↦ absurd rfl h
    silent := fun _ command hutters hconfirms ↦ ?_
    unthrottled := fun _ command hutters htag ↦ ?_
    tame := fun _ command hutters ↦ ?_ }⟩
  · cases hrequests.stands with
    | waits hstate hterms hreported => exact .waits hstate (congrArg Terms.lasting hterms) hreported
    | lost hstate hreported => exact .lost hstate hreported
    | joined hagreed => exact hagreed.elim
  · obtain ⟨-, sentTime, hacknowledges⟩ := hconfirms
    have htag := Command.tag_of_body hacknowledges
    rcases hrequests.utters command hutters with rfl | hfarewell | hannounces
    · cases htag
    · exact (Command.tag_of_isRoutine (Command.isRoutine_of_isFarewell hfarewell)).2.2.2 htag
    · cases htag.symm.trans hannounces
  · rcases hrequests.utters command hutters with rfl | hfarewell | hannounces
    · cases htag
    · have hplain := (Command.tag_of_isRoutine (Command.isRoutine_of_isFarewell hfarewell)).1
      exact (Command.tag_of_not_configures hplain).2 htag
    · cases htag.symm.trans hannounces
  · rcases hutters with ⟨datagram, hnone, -⟩ | ⟨acknowledgement, -, rfl⟩ |
      ⟨outgoing, hmem, -⟩ | hmem
    · cases hnone
    · exact acknowledgement.tame_toCommand _
    · rw [hgranted.unreliable] at hmem
      cases hmem
    · rw [hgranted.outstanding] at hmem
      rw [List.mem_singleton.mp hmem]
      exact Deal.tame_grant _

/-! ## Steps -/

variable {after : Party} {near far : Party} {datagram : Bytes} {header : Header}
  {command : Command} {context : Context} {event : Option PeerEvent} {peer : Peer}

/-- The granting side has granted nothing but the deal, as long as the asking one waits. -/
theorem Settling.answer_eq (h : Settling deal ⟨near, far⟩) (hwaiting : near.established = [])
    (hdatagram : datagram ∈ far.composed)
    (hcarries : Datagram.Carries far.peer.settings.checksums datagram header command)
    {answer : Handshake} (hbody : command.body = .verifyConnect answer) : answer = deal.answer := by
  have hfar : far.established = [] := by
    by_contra hreported
    exact h.precedes hreported hwaiting
  have hgrant := (h.tame hfar command (.inl ⟨datagram, hdatagram, header, hcarries⟩)).granting
    (Command.tag_of_body hbody)
  rw [hgrant] at hbody
  exact (Body.verifyConnect.inj hbody).symm

/-- The asking side accepts the grant and nothing else. -/
theorem Settling.near_hear (h : Settling deal ⟨near, far⟩) (hdatagram : datagram ∈ far.composed)
    (hcarries : Datagram.Carries far.peer.settings.checksums datagram header command)
    (hhandle : near.peer.handle header command context = .ok (event, peer)) :
    (near.hear command event peer).Stands .connecting (·.lasting = deal.asked.lasting)
      deal.Accepts := by
  have hreacts := Peer.handle_reacts hhandle
  cases h.near with
  | lost hover _ =>
    exact (h.near.hear_of_settled rfl (PeerState.isHandshaking_of_not_active hover) hreacts).1
  | joined _ _ hsettled => exact (h.near.hear_of_settled rfl hsettled hreacts).1
  | waits hstate hterms hnone =>
    have hsilent (hevent : event ≠ some .connected) :
        (near.hear command event peer).established = [] := by
      rw [Party.hear, if_neg hevent, List.append_nil, hnone]
    cases hreacts with
    | same _ _ hsame hkept =>
      exact .waits (hsame.trans hstate) ((congrArg Terms.lasting hkept).trans hterms)
        (hsilent (by simp))
    | limited _ _ hsame hkept =>
      exact .waits (hsame.trans hstate) ((congrArg Terms.lasting hkept).trans hterms)
        (hsilent (by simp))
    | confirmed hbefore =>
      rw [hstate] at hbefore
      cases hbefore
    | @granted _ answer mtu window hbefore hbody hagrees hmtu hwindow hafter hsettled =>
      obtain rfl := h.answer_eq hnone hdatagram hcarries hbody
      rw [Peer.agreesWith, Bool.and_eq_true, beq_iff_eq, beq_iff_eq] at hagrees
      have hchannels : near.peer.channels.length = deal.asked.channelCount :=
        congrArg Terms.channelCount hterms
      have hthrottle : near.peer.pacing.parameters = deal.asked.throttle :=
        congrArg Terms.throttle hterms
      have hsettings : near.peer.settings = deal.asked.settings := congrArg Terms.settings hterms
      have hsize : near.peer.mtu = deal.asked.mtu := congrArg Terms.mtu hterms
      refine .joined ⟨mtu, hsettings ▸ hmtu, hagrees.1.trans hchannels,
        hagrees.2.trans hthrottle, (congrArg Terms.lasting hsettled).trans ?_⟩ ?_ ?_
      · rw [← hterms, ← hsize]
        rfl
      · rw [Party.hear, if_pos rfl, hnone]
        rfl
      · rw [Party.hear, hafter]
        rfl
    | ended hevent hover =>
      rcases hover with hover | ⟨hconnected, -⟩
      · exact .lost hover (hsilent hevent)
      · rw [hstate] at hconnected
        cases hconnected
    | throttled hbody =>
      have hfar : far.established = [] := by
        by_contra hreported
        exact h.precedes hreported hnone
      exact absurd (Command.tag_of_body hbody)
        (h.tame hfar command (.inl ⟨datagram, hdatagram, header, hcarries⟩)).unthrottled

/-- The granting side reports the connection once the other one has acknowledged the grant, and
what the other one announces leaves its lasting terms as they are. -/
theorem Settling.far_hear (h : Settling deal ⟨near, far⟩) (hdatagram : datagram ∈ near.composed)
    (hcarries : Datagram.Carries near.peer.settings.checksums datagram header command)
    (hhandle : far.peer.handle header command context = .ok (event, peer)) :
    (far.hear command event peer).Stands .acknowledgingConnect
        (·.lasting = deal.granted.lasting) (·.lasting = deal.granted.lasting) ∧
      ((far.hear command event peer).established ≠ [] → near.established ≠ []) := by
  have hreacts := Peer.handle_reacts hhandle
  have hsettled (hover : far.peer.state.isHandshaking = false) :
      (far.hear command event peer).Stands .acknowledgingConnect
          (·.lasting = deal.granted.lasting) (·.lasting = deal.granted.lasting) ∧
        ((far.hear command event peer).established ≠ [] → near.established ≠ []) := by
    obtain ⟨hstands, hreported⟩ := h.far.hear_of_settled rfl hover hreacts
    refine ⟨hstands, fun hafter ↦ h.precedes ?_⟩
    rw [← hreported]
    exact hafter
  cases h.far with
  | lost hover _ => exact hsettled (PeerState.isHandshaking_of_not_active hover)
  | joined _ _ hover => exact hsettled hover
  | waits hstate hterms hnone =>
    have hutters : near.Utters command := .inl ⟨datagram, hdatagram, header, hcarries⟩
    have hsilent (hevent : event ≠ some .connected) :
        (far.hear command event peer).established = [] := by
      rw [Party.hear, if_neg hevent, List.append_nil, hnone]
    have hwaits (hafter : peer.state = far.peer.state)
        (hkept : peer.terms.lasting = far.peer.terms.lasting) (hevent : event ≠ some .connected) :
        (far.hear command event peer).Stands .acknowledgingConnect
            (·.lasting = deal.granted.lasting) (·.lasting = deal.granted.lasting) ∧
          ((far.hear command event peer).established ≠ [] → near.established ≠ []) :=
      ⟨.waits (hafter.trans hstate) (hkept.trans hterms) (hsilent hevent),
        fun hreported ↦ absurd (hsilent hevent) hreported⟩
    cases hreacts with
    | same _ _ hsame hkept => exact hwaits hsame (congrArg Terms.lasting hkept) (by simp)
    | limited _ _ hsame hkept => exact hwaits hsame (by rw [hkept]; rfl) (by simp)
    | @confirmed _ grant sentTime _ hgrant htag hchannel hbody hafter hkept =>
      refine ⟨.joined ((congrArg Terms.lasting hkept).trans hterms) ?_ ?_, fun _ hnear ↦ ?_⟩
      · rw [Party.hear, if_pos rfl, hnone]
        rfl
      · rw [Party.hear, hafter]
        rfl
      · have hdeal := (h.tame hnone grant (.inr (.inr (.inr hgrant)))).granting htag
        rw [hdeal] at hchannel hbody
        exact h.silent hnear command hutters ⟨hchannel.symm, sentTime, hbody⟩
    | granted hbefore =>
      rw [hstate] at hbefore
      cases hbefore
    | ended hevent hover =>
      rcases hover with hover | ⟨hconnected, -⟩
      · exact ⟨.lost hover (hsilent hevent), fun hreported ↦ absurd (hsilent hevent) hreported⟩
      · rw [hstate] at hconnected
        cases hconnected
    | throttled hbody =>
      exact absurd (Command.tag_of_body hbody) (h.unthrottled hnone command hutters)

theorem Settling.near_step (h : Settling deal ⟨near, far⟩)
    (hstep : Party.Step (.steady nearCaps (IsComplete ⟨near, far⟩)) far.peer.settings.checksums
      far.composed near after) : Settling deal ⟨after, far⟩ := by
  have hreported (hnone : after.established = []) : near.established = [] :=
    List.subset_nil.mp (hnone ▸ hstep.established_subset)
  have hstands : after.Stands .connecting (·.lasting = deal.asked.lasting) deal.Accepts := by
    have hcomplete : IsComplete ⟨near, far⟩ → near.established ≠ [] := fun h ↦ h.1
    rcases h.near.step rfl hcomplete hstep with ⟨hstands, -⟩ | ⟨datagram, hdatagram, header,
      command, context, event, peer, hcarries, hhandle, rfl⟩
    · exact hstands
    · exact h.near_hear hdatagram hcarries hhandle
  refine {
    near := hstands
    far := h.far
    precedes := fun hfar hnone ↦ h.precedes hfar (hreported hnone)
    silent := fun hnone command hutters ↦ ?_
    unthrottled := fun hfar command hutters ↦ ?_
    tame := h.tame }
  · have hwaiting := hreported hnone
    have hfar : far.established = [] := by
      by_contra hjoined
      exact h.precedes hjoined hwaiting
    rcases hstep.utters hutters with hold | hnew
    · exact h.silent hwaiting command hold
    rintro ⟨hchannel, sentTime, hbody⟩
    have htag := Command.tag_of_body hbody
    cases hnew with
    | routine _ hroutine => exact (Command.tag_of_isRoutine hroutine).2.2.2 htag
    | farewell hfarewell =>
      exact (Command.tag_of_isRoutine (Command.isRoutine_of_isFarewell hfarewell)).2.2.2 htag
    | announced _ _ hannounces => cases htag.symm.trans (Command.tag_of_body hannounces)
    | configured _ hallowed => exact absurd hwaiting hallowed.1
    | @acknowledged datagram header heard context event hdatagram hcarries hhandle hasks
        hallows hcommand =>
      -- Only the grant has that number, and accepting it would have been reported.
      rw [hcommand] at hchannel hbody
      have hgrant := (h.tame hfar heard (.inl ⟨datagram, hdatagram, header, hcarries⟩)).numbered
        hasks hchannel (Body.acknowledge.inj hbody).1
      rcases hstands.of_reported hnone with ⟨hconnecting, -⟩ | hover
      · have hunanswered := ((Peer.handle_reacts hhandle).connecting hconnecting).2
        exact absurd (congrArg Command.tag hgrant) hunanswered
      · rw [hgrant] at hallows
        generalize after.peer.state = state at hallows hover
        cases state <;> cases hover <;> cases hallows
  · rcases hstep.utters hutters with hold | hnew
    · exact h.unthrottled hfar command hold
    cases hnew with
    | routine _ hroutine =>
      exact (Command.tag_of_not_configures (Command.tag_of_isRoutine hroutine).1).2
    | farewell hfarewell => exact (Command.tame_of_isFarewell hfarewell deal).unthrottled
    | announced _ _ hbody =>
      rw [Command.tag_of_body hbody]
      exact fun h ↦ by cases h
    | configured _ hallowed => exact absurd hfar hallowed.2
    | acknowledged _ _ _ _ _ hcommand =>
      rw [hcommand]
      exact (Acknowledgement.tame_toCommand _ deal).unthrottled

theorem Settling.far_step (h : Settling deal ⟨near, far⟩)
    (hstep : Party.Step (.granting farCaps (IsComplete ⟨near, far⟩)) near.peer.settings.checksums
      near.composed far after) : Settling deal ⟨near, after⟩ := by
  have hreported (hnone : after.established = []) : far.established = [] :=
    List.subset_nil.mp (hnone ▸ hstep.established_subset)
  have hcomplete : IsComplete ⟨near, far⟩ → far.established ≠ [] := fun h ↦ h.2
  have hstands : after.Stands .acknowledgingConnect (·.lasting = deal.granted.lasting)
        (·.lasting = deal.granted.lasting) ∧
      (after.established ≠ [] → near.established ≠ []) := by
    rcases h.far.step rfl hcomplete hstep with ⟨hstands, hsame⟩ | ⟨datagram, hdatagram, header,
      command, context, event, peer, hcarries, hhandle, rfl⟩
    · rw [hsame]
      exact ⟨hstands, h.precedes⟩
    · exact h.far_hear hdatagram hcarries hhandle
  refine {
    near := h.near
    far := hstands.1
    precedes := hstands.2
    silent := h.silent
    unthrottled := fun hnone ↦ h.unthrottled (hreported hnone)
    tame := fun hnone command hutters ↦ ?_ }
  have hwaiting := hreported hnone
  have hunconnected := h.far.ne_connected rfl hwaiting
  rcases hstep.utters hutters with hold | hnew
  · exact h.tame hwaiting command hold
  cases hnew with
  | routine hconnected => exact absurd hconnected hunconnected
  | farewell hfarewell => exact command.tame_of_isFarewell hfarewell deal
  | announced _ hallowed hbody hsequence =>
    exact Command.tame_of_announces hbody hsequence (hallowed.resolve_left hunconnected) deal
  | configured _ hallowed => exact absurd hwaiting hallowed.2
  | acknowledged _ _ _ _ _ hcommand =>
    rw [hcommand]
    exact Acknowledgement.tame_toCommand _ deal

theorem Arises.settling (h : Arises settings nearCaps farCaps conversation) :
    ∃ deal : Deal, deal.Fair settings farCaps.incoming ∧ conversation.Settling deal := by
  obtain ⟨start, hopens, hrun⟩ := h
  obtain ⟨deal, hfair, hsettling⟩ := hopens.settling
  refine ⟨deal, hfair, ?_⟩
  induction hrun with
  | refl => exact hsettling
  | tail _ hstep ih =>
    cases hstep with
    | near hstep => exact ih.near_step hstep
    | far hstep => exact ih.far_step hstep

end Conversation

end ReliableDatagram
