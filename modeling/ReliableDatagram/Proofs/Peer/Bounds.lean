import ReliableDatagram.Proofs.Negotiation
import ReliableDatagram.Proofs.Peer.Lifecycle
import ReliableDatagram.Proofs.Peer.Opening
import ReliableDatagram.Proofs.Peer.Operations

/-!
# Sizes within their bounds

The datagram size and the window of a peer follow what the other end offers, answers and
announces, which can be anything, and the bandwidth of the host. Each value that comes from
there is brought within the bounds of the settings before it is taken over, or is compared with
one that lies within them. So if the settings are in order, both sizes stay within their bounds
whatever is asked of the peer and whatever arrives, and nothing that is asked ends in a fault.
Any other condition on the two sizes that the settings see to is kept in the same way.
-/

namespace ReliableDatagram

namespace Peer

variable {peer after : Peer} {header : Header} {command : Command} {context : Context}
  {event : Option PeerEvent} {action : Action}

/-! ## Settings in order -/

theorem handle_settings (h : peer.handle header command context = .ok (event, after)) :
    after.settings = peer.settings := by
  cases handle_reacts h with
  | ended _ _ _ hsettings => exact hsettings
  | same _ _ _ hterms => exact congrArg Terms.settings hterms
  | confirmed _ _ _ _ _ _ hterms => exact congrArg Terms.settings hterms
  | granted _ _ _ _ _ _ hterms => exact congrArg Terms.settings hterms
  | limited _ _ _ hterms => exact congrArg Terms.settings hterms
  | throttled _ _ hterms => exact congrArg Terms.settings hterms

theorem exists_handleVerifyConnect (hsettings : peer.settings.Sound) (answer : Handshake) :
    ∃ handled, peer.handleVerifyConnect answer = .ok handled := by
  obtain ⟨mtu, hmtu⟩ := hsettings.exists_clampMtu answer.mtu
  obtain ⟨window, hwindow, -⟩ := hsettings.clampWindow_eq answer.window
  unfold handleVerifyConnect
  rw [hmtu, hwindow]
  split
  · exact ⟨_, rfl⟩
  · split <;> exact ⟨_, rfl⟩

theorem exists_perform (hsettings : peer.settings.Sound) (command : Command)
    (context : Context) : ∃ handled, peer.perform command context = .ok handled := by
  unfold perform
  split
  case h_5 answer _ => exact exists_handleVerifyConnect hsettings answer
  case h_11 incoming outgoing _ =>
    obtain ⟨window, hwindow, -⟩ :=
      hsettings.windowFor_eq (Settings.tighterBandwidth incoming context.outgoingBandwidth)
    rw [Settings.peerWindow, hwindow]
    exact ⟨_, rfl⟩
  all_goals
    try split
    all_goals exact ⟨_, rfl⟩

theorem exists_handle (hsettings : peer.settings.Sound) (header : Header) (command : Command)
    (context : Context) :
    ∃ event after, peer.handle header command context = .ok (event, after) := by
  obtain ⟨handled, hperform⟩ := exists_perform hsettings command context
  unfold handle
  rw [hperform]
  dsimp only [bind, Except.bind]
  split <;> exact ⟨_, _, rfl⟩

theorem exists_accept (hsettings : peer.settings.Sound) (address : Address) (header : Header)
    (command : Command) (offer : Handshake) (context : Context) :
    ∃ after, peer.accept address header command offer context = .ok after := by
  obtain ⟨mtu, hmtu⟩ := hsettings.exists_clampMtu offer.mtu
  obtain ⟨window, hwindow, -⟩ := hsettings.windowFor_eq
    (Settings.tighterBandwidth offer.incomingBandwidth context.outgoingBandwidth)
  obtain ⟨answered, hanswered, -⟩ := hsettings.windowFor_eq context.incomingBandwidth
  unfold accept
  rw [hmtu, Settings.peerWindow, hwindow, hanswered]
  exact ⟨_, rfl⟩

theorem accept_settings {address : Address} {offer : Handshake}
    (h : peer.accept address header command offer context = .ok after) :
    after.settings = peer.settings := by
  obtain ⟨mtu, window, answered, -, -, -, hgranted⟩ := accept_eq_ok h
  exact congrArg Terms.settings hgranted.terms

theorem exists_connect (hsettings : peer.settings.Sound) (address : Address)
    (channelCount : Nat) (challenge : UInt32) (context : Context) :
    ∃ after, peer.connect address channelCount challenge context = .ok after := by
  obtain ⟨window, hwindow, -⟩ := hsettings.windowFor_eq context.outgoingBandwidth
  unfold connect
  rw [Settings.clampChannelCount, Bounds.clamp, if_pos hsettings.channelCount, hwindow]
  exact ⟨_, rfl⟩

/-- Nothing that is asked of a peer ends in a fault. -/
theorem exists_act (hsettings : peer.settings.Sound) (action : Action) :
    ∃ event after, peer.act action = .ok (event, after) := by
  cases action with
  | connect address channelCount challenge context =>
    obtain ⟨after, hconnect⟩ := exists_connect hsettings address channelCount challenge context
    rw [act, hconnect]
    exact ⟨none, after, rfl⟩
  | accept address header command offer context =>
    obtain ⟨after, haccept⟩ := exists_accept hsettings address header command offer context
    rw [act, haccept]
    exact ⟨none, after, rfl⟩
  | handle header command context => exact exists_handle hsettings header command context
  | send channel packet =>
    rw [act]
    split <;> exact ⟨_, _, rfl⟩
  | _ => exact ⟨_, _, rfl⟩

/-! ## What happens to a peer -/

/-- Everything that can happen to a peer, apart from what ends in a fault. -/
inductive Undergoes (peer : Peer) : Peer → Prop where
  | connects {address : Address} {channelCount : Nat} {challenge : UInt32} {context : Context}
      {after : Peer} (hconnect : peer.connect address channelCount challenge context = .ok after) :
      Undergoes peer after
  /-- A connection that was asked for is granted. -/
  | accepts {address : Address} {header : Header} {command : Command} {offer : Handshake}
      {context : Context} {after : Peer}
      (haccept : peer.accept address header command offer context = .ok after) :
      Undergoes peer after
  | refuses : Undergoes peer peer
  /-- The application or the host asks for something else. -/
  | operates {after : Peer} (hoperates : Operates peer after) : Undergoes peer after
  | configures (parameters : ThrottleParameters) :
      Undergoes peer (peer.configureThrottle parameters)
  | announces (incoming outgoing : UInt32) :
      Undergoes peer (peer.announceBandwidth incoming outgoing)
  | composes (now : Stamp) (check : Bool) : Undergoes peer (peer.compose now check).2
  | handles {header : Header} {command : Command} {context : Context}
      {event : Option PeerEvent} {after : Peer}
      (hhandle : peer.handle header command context = .ok (event, after)) : Undergoes peer after

theorem undergoes_of_act (h : peer.act action = .ok (event, after)) : Undergoes peer after := by
  cases action with
  | connect address channelCount challenge context =>
    cases hconnect : peer.connect address channelCount challenge context with
    | error fault =>
      rw [act, hconnect] at h
      cases h
    | ok next =>
      rw [act, hconnect] at h
      cases h
      exact .connects hconnect
  | accept address header command offer context =>
    cases haccept : peer.accept address header command offer context with
    | error fault =>
      rw [act, haccept] at h
      cases h
    | ok next =>
      rw [act, haccept] at h
      cases h
      exact .accepts haccept
  | send channel packet =>
    rw [act] at h
    split at h
    · cases h
      exact .refuses
    · rename_i hsend
      cases h
      exact .operates (.send hsend)
  | handle => exact .handles h
  | configureThrottle parameters =>
    cases h
    exact .configures parameters
  | announceBandwidth incoming outgoing =>
    cases h
    exact .announces incoming outgoing
  | compose now check =>
    cases h
    exact .composes now check
  | reset =>
    cases h
    exact .operates .reset
  | ping =>
    cases h
    exact .operates .ping
  | disconnect =>
    cases h
    exact .operates .disconnect
  | disconnectNow =>
    cases h
    exact .operates .disconnectNow
  | receive channel =>
    cases h
    exact .operates (.receive channel)
  | receiveAny =>
    cases h
    exact .operates .receiveAny

/-! ## Sizes -/

/-- A condition on the datagram size and the window that the settings see to: it holds of the
sizes of a peer without a connection, of those that a connection is asked for and granted with,
and still when a grant or a bandwidth is taken over. -/
structure Upholds (settings : Settings) (fits : UInt16 → UInt32 → Prop) : Prop where
  vacant : fits settings.defaultMtu settings.window.upper
  asked {bandwidth window : UInt32} (hwindow : settings.windowFor bandwidth = .ok window) :
    fits settings.defaultMtu window
  accepted {offer mtu : UInt16} {bandwidth window : UInt32}
    (hmtu : settings.clampMtu offer = .ok mtu)
    (hwindow : settings.windowFor bandwidth = .ok window) : fits mtu window
  granted {offer mtu size : UInt16} {answer window flight : UInt32} (hfits : fits size flight)
    (hmtu : settings.clampMtu offer = .ok mtu)
    (hwindow : settings.clampWindow answer = .ok window) :
    fits (min mtu size) (min window flight)
  limited {mtu : UInt16} {bandwidth flight window : UInt32} (hfits : fits mtu flight)
    (hwindow : settings.windowFor bandwidth = .ok window) : fits mtu window

/-- The condition holds of the sizes of a peer that works with the settings. -/
structure Sized (settings : Settings) (fits : UInt16 → UInt32 → Prop) (peer : Peer) : Prop where
  keeps : peer.settings = settings
  sizes : fits peer.mtu peer.window

variable {settings : Settings} {fits : UInt16 → UInt32 → Prop}

/-- Only the terms of the connection matter. -/
theorem Sized.of_terms (h : Sized settings fits peer) (hterms : after.terms = peer.terms) :
    Sized settings fits after where
  keeps := (congrArg Terms.settings hterms).trans h.keeps
  sizes := by
    rw [show after.mtu = peer.mtu from congrArg Terms.mtu hterms,
      show after.window = peer.window from congrArg Terms.window hterms]
    exact h.sizes

theorem Sized.reset (h : Sized settings fits peer) (hupholds : Upholds settings fits) :
    Sized settings fits peer.reset := by
  rw [Peer.reset, h.keeps]
  exact ⟨rfl, hupholds.vacant⟩

/-! ## The handshake -/

theorem connect_sized {address : Address} {channelCount : Nat} {challenge : UInt32}
    (hupholds : Upholds settings fits) (hpeer : peer.settings = settings)
    (h : peer.connect address channelCount challenge context = .ok after) :
    Sized settings fits after := by
  obtain ⟨count, window, -, hwindow, hasked⟩ := connect_eq_ok h
  subst hpeer
  refine ⟨congrArg Terms.settings hasked.terms, ?_⟩
  rw [show after.mtu = peer.settings.defaultMtu from congrArg Terms.mtu hasked.terms,
    show after.window = window from congrArg Terms.window hasked.terms]
  exact hupholds.asked hwindow

theorem accept_sized {address : Address} {offer : Handshake}
    (hupholds : Upholds settings fits) (hpeer : peer.settings = settings)
    (h : peer.accept address header command offer context = .ok after) :
    Sized settings fits after := by
  obtain ⟨mtu, window, answered, hmtu, hwindow, -, hgranted⟩ := accept_eq_ok h
  subst hpeer
  refine ⟨congrArg Terms.settings hgranted.terms, ?_⟩
  rw [show after.mtu = mtu from congrArg Terms.mtu hgranted.terms,
    show after.window = window from congrArg Terms.window hgranted.terms]
  exact hupholds.accepted hmtu hwindow

theorem TakesGrant.sized {answer : Handshake} {handled : Handled}
    (h : peer.TakesGrant answer handled) (hupholds : Upholds settings fits)
    (hsized : Sized settings fits peer) : Sized settings fits handled.peer := by
  cases h with
  | unasked => exact hsized
  | refused => exact hsized.of_terms rfl
  | granted _ _ hmtu hwindow =>
    obtain ⟨hterms, hsize, hflight⟩ := peer.terms_removeConnect
    rw [hsized.keeps] at hmtu hwindow
    refine ⟨(congrArg Terms.settings hterms).trans hsized.keeps, ?_⟩
    dsimp only
    rw [hsize, hflight]
    exact hupholds.granted hsized.sizes hmtu hwindow

/-! ## Commands -/

theorem TakesAcknowledgement.sized {channel : UInt8} {sequence : UInt32} {sentTime : Stamp}
    (h : peer.TakesAcknowledgement channel sequence sentTime context event after)
    (hupholds : Upholds settings fits) (hsized : Sized settings fits peer) :
    Sized settings fits after := by
  have hterms := ((peer.heard sentTime context).terms_removeSent sequence channel).1.trans
    (peer.terms_heard sentTime context)
  cases h with
  | early => exact hsized
  | confirmed => exact hsized.of_terms hterms
  | departed => exact hsized.reset hupholds
  | noted => exact hsized.of_terms hterms

theorem handleDisconnect_sized (hupholds : Upholds settings fits)
    (hsized : Sized settings fits peer) (confirm : Bool) :
    Sized settings fits (peer.handleDisconnect confirm) := by
  unfold handleDisconnect
  split
  · exact hsized
  · exact hsized
  · exact hsized.of_terms peer.terms_clearQueues
  · exact hsized.of_terms peer.terms_clearQueues
  · exact hsized.reset hupholds

theorem perform_sized {handled : Handled} (hupholds : Upholds settings fits)
    (hsized : Sized settings fits peer) (h : peer.perform command context = .ok handled) :
    Sized settings fits handled.peer := by
  cases obeys_of_perform h with
  | nothing => exact hsized
  | acknowledged _ htakes => exact htakes.sized hupholds hsized
  | answered _ hgrant => exact hgrant.sized hupholds hsized
  | left => exact handleDisconnect_sized hupholds hsized _
  | taken => exact hsized.of_terms (terms_setChannel ..)
  | refused => exact hsized
  | limited _ hwindow =>
    rw [hsized.keeps] at hwindow
    exact ⟨hsized.keeps, hupholds.limited hsized.sizes hwindow⟩
  | throttled => exact ⟨hsized.keeps, hsized.sizes⟩

theorem handle_sized (hupholds : Upholds settings fits) (hsized : Sized settings fits peer)
    (h : peer.handle header command context = .ok (event, after)) : Sized settings fits after := by
  obtain ⟨handled, hperform, rfl, rfl | ⟨-, -, rfl⟩⟩ := handle_eq_ok h
  · exact perform_sized hupholds hsized hperform
  · exact (perform_sized hupholds hsized hperform).of_terms (terms_queueAcknowledgement ..)

/-! ## Requests -/

theorem compose_sized (hupholds : Upholds settings fits) (hsized : Sized settings fits peer)
    (now : Stamp) (check : Bool) : Sized settings fits (peer.compose now check).2 := by
  rcases peer.compose_cases now check with ⟨-, hreset⟩ | ⟨hgoes, -⟩
  · rw [hreset]
    exact hsized.reset hupholds
  · exact hsized.of_terms (peer.terms_compose now check hgoes)

theorem Operates.sized (h : Operates peer after) (hupholds : Upholds settings fits)
    (hsized : Sized settings fits peer) : Sized settings fits after := by
  cases h with
  | send hsend => exact hsized.of_terms (terms_send hsend)
  | receive channel => exact hsized.of_terms (peer.terms_receive channel)
  | receiveAny => exact hsized.of_terms peer.terms_receiveAny
  | ping => exact hsized.of_terms peer.terms_ping
  | disconnect => exact hsized.of_terms peer.disconnect_leaves.terms
  | disconnectNow => exact hsized.of_terms peer.disconnectNow_leaves.terms
  | reset => exact hsized.reset hupholds
  | abandon | relocate | recordReceived | setThrottleLimit | markEpochs | resetTotals =>
    exact hsized.of_terms rfl

theorem Undergoes.sized (h : Undergoes peer after) (hupholds : Upholds settings fits)
    (hsized : Sized settings fits peer) : Sized settings fits after := by
  cases h with
  | connects hconnect => exact connect_sized hupholds hsized.keeps hconnect
  | accepts haccept => exact accept_sized hupholds hsized.keeps haccept
  | refuses => exact hsized
  | operates hoperates => exact hoperates.sized hupholds hsized
  | configures parameters =>
    have hconfigured : Sized settings fits
        { peer with pacing := peer.pacing.configure parameters } :=
      ⟨hsized.keeps, hsized.sizes⟩
    exact hconfigured.of_terms (terms_queueControl ..)
  | announces => exact hsized.of_terms (terms_queueControl ..)
  | composes now check => exact compose_sized hupholds hsized now check
  | handles hhandle => exact handle_sized hupholds hsized hhandle

/-! ## Whole lives -/

/-- What a peer can come to be, whatever is asked of it, whatever its host does with it and
whatever arrives. -/
inductive Reached (id : UInt16) (settings : Settings) : Peer → Prop where
  | vacant : Reached id settings (vacant id settings)
  | act {peer after : Peer} {action : Action} {event : Option PeerEvent}
      (h : Reached id settings peer) (hact : peer.act action = .ok (event, after)) :
      Reached id settings after
  /-- The host keeps its accounts, or asks for something. -/
  | operate {peer after : Peer} (h : Reached id settings peer) (hoperates : Operates peer after) :
      Reached id settings after

variable {id : UInt16}

theorem Reached.run {actions : List Action} {events : List PeerEvent}
    (h : Reached id settings peer) (hrun : peer.run actions = .ok (events, after)) :
    Reached id settings after := by
  induction actions generalizing peer events with
  | nil =>
    cases hrun
    exact h
  | cons action rest ih =>
    obtain ⟨event, middle, later, hact, hrest, -⟩ := run_cons_eq_ok hrun
    exact ih (h.act hact) hrest

theorem Reached.compose (h : Reached id settings peer) (now : Stamp) (check : Bool) :
    Reached id settings (peer.compose now check).2 :=
  have hact : peer.act (.compose now check) = .ok (none, (peer.compose now check).2) := rfl
  h.act hact

theorem Reached.sized (h : Reached id settings peer) (hupholds : Upholds settings fits) :
    Sized settings fits peer := by
  induction h with
  | vacant => exact ⟨rfl, hupholds.vacant⟩
  | act _ hact ih => exact (undergoes_of_act hact).sized hupholds ih
  | operate _ hoperates ih => exact hoperates.sized hupholds ih

/-- The datagram size and the window lie within the bounds of the settings. -/
structure Bounded (settings : Settings) (peer : Peer) : Prop where
  keeps : peer.settings = settings
  mtu : settings.mtu.contains peer.mtu = true
  window : settings.window.contains peer.window = true

theorem upholds_bounds (hsettings : settings.Sound) : Upholds settings fun mtu window ↦
    settings.mtu.contains mtu = true ∧ settings.window.contains window = true where
  vacant := ⟨Bounds.contains_iff.mpr hsettings.mtu,
    Bounds.contains_iff.mpr ⟨hsettings.window, UInt32.le_refl _⟩⟩
  asked hwindow :=
    ⟨Bounds.contains_iff.mpr hsettings.mtu, hsettings.contains_of_windowFor hwindow⟩
  accepted hmtu hwindow :=
    ⟨Bounds.contains_of_clamp hmtu, hsettings.contains_of_windowFor hwindow⟩
  granted hfits hmtu hwindow :=
    ⟨Bounds.contains_min (Bounds.contains_of_clamp hmtu) hfits.1,
      Bounds.contains_min (Bounds.contains_of_clamp hwindow) hfits.2⟩
  limited hfits hwindow := ⟨hfits.1, hsettings.contains_of_windowFor hwindow⟩

theorem Reached.bounded (h : Reached id settings peer) (hsettings : settings.Sound) :
    Bounded settings peer :=
  let hsized := h.sized (upholds_bounds hsettings)
  ⟨hsized.keeps, hsized.sizes.1, hsized.sizes.2⟩

/-- Whether or not the settings are in order, the datagram size stays above the least one that
may be negotiated or is offered, and the window below the greatest one. -/
theorem upholds_caps (settings : Settings) : Upholds settings fun mtu window ↦
    min settings.mtu.lower.toNat settings.defaultMtu.toNat ≤ mtu.toNat ∧
      window ≤ settings.window.upper where
  vacant := ⟨Nat.min_le_right _ _, UInt32.le_refl _⟩
  asked hwindow := ⟨Nat.min_le_right _ _, Settings.le_upper_of_windowFor hwindow⟩
  accepted hmtu hwindow := by
    obtain ⟨-, hvalue⟩ := Settings.clampMtu_eq_ok hmtu
    exact ⟨by omega, Settings.le_upper_of_windowFor hwindow⟩
  granted {offer mtu size answer window flight} hfits hmtu hwindow := by
    obtain ⟨-, hvalue⟩ := Settings.clampMtu_eq_ok hmtu
    have hclamped := (Bounds.contains_iff.mp (Bounds.contains_of_clamp hwindow)).2
    have hsizes : min mtu size = mtu ∨ min mtu size = size := Std.min_eq_or
    have hflights : min window flight = window ∨ min window flight = flight := Std.min_eq_or
    refine ⟨?_, ?_⟩
    · rcases hsizes with heq | heq <;> rw [heq]
      · omega
      · exact hfits.1
    · rcases hflights with heq | heq <;> rw [heq]
      · exact hclamped
      · exact hfits.2
  limited hfits hwindow := ⟨hfits.1, Settings.le_upper_of_windowFor hwindow⟩

/-- If the settings are in order, the datagram size and the window of a peer always lie within
their bounds, and whatever is asked of it next or arrives next comes to an end. -/
theorem Reached.within_bounds (h : Reached id settings peer) (hsettings : settings.Sound) :
    settings.mtu.contains peer.mtu = true ∧ settings.window.contains peer.window = true ∧
      ∀ action, ∃ event after, peer.act action = .ok (event, after) := by
  have hbounded := h.bounded hsettings
  exact ⟨hbounded.mtu, hbounded.window, exists_act (hbounded.keeps ▸ hsettings)⟩

/-- A connection whose other end grants the largest datagrams and no window, and then announces
the smallest bandwidth that is not unlimited. -/
def squeeze : List Action :=
  let context : Context := ⟨1000, 0, 0⟩
  let header : Header := ⟨0, 0, 1, 1000, 7⟩
  [.connect ⟨"10.0.0.1", 4000⟩ 1 7 context,
    .handle header ⟨controlChannel, Command.acknowledgeFlag, 1,
      .verifyConnect ⟨3, 65535, 0, 1, 0, 0, Settings.throttle {}⟩⟩ context,
    .handle header ⟨controlChannel, Command.acknowledgeFlag, 2, .bandwidthLimit 1 1⟩ context]

/-- The window goes no lower than the settings allow. -/
theorem within_bounds_squeeze : ∃ events peer, (vacant 0 {}).run squeeze = .ok (events, peer) ∧
    peer.mtu = 1400 ∧ peer.window = 4096 ∧
    Bounds.contains (Settings.mtu {}) peer.mtu = true ∧
    Bounds.contains (Settings.window {}) peer.window = true := by
  have hreplay : ((vacant 0 {}).run squeeze).toOption.any
      (fun result ↦ result.2.mtu == 1400 && result.2.window == 4096) = true := by
    decide +kernel
  obtain ⟨⟨events, peer⟩, hrun, hends⟩ := exists_of_any_toOption hreplay
  rw [Bool.and_eq_true, beq_iff_eq, beq_iff_eq] at hends
  have hsettings : Settings.Sound {} := ⟨by decide, by decide, by decide⟩
  obtain ⟨hmtu, hwindow, -⟩ := Reached.within_bounds (Reached.vacant.run hrun) hsettings
  exact ⟨events, peer, hrun, hends.1, hends.2, hmtu, hwindow⟩

end Peer

end ReliableDatagram
