import ReliableDatagram.Proofs.Connection.Settlement

/-!
# What both sides of a handshake report

Both sides of a handshake report the connection on the same terms, the one that asks for it
first. The windows are another matter. Once the asking side is connected, its host may announce
a share of its bandwidth, which the granting side takes over while it still waits for the
acknowledgement of its grant. So a window is the one that the bandwidth announced last buys,
and it is the one of the whole bandwidth only if no share was announced.
-/

namespace ReliableDatagram

namespace Conversation

variable {settings : Settings} {nearCaps farCaps : Caps} {deal : Deal}
  {conversation : Conversation}

/-! ## Windows -/

theorem Opens.follows (h : Opens settings nearCaps farCaps conversation) :
    conversation.near.Follows nearCaps ⟨0, 0⟩ ∧ conversation.far.Follows farCaps nearCaps := by
  obtain ⟨hslot, hcontext, hconnect, halone, hdatagram, hcarries, hbody, hother, hmoment,
    haccept⟩ := h
  rename_i slot peer address source channelCount challenge context moment near other granted
    datagram header command offer
  obtain ⟨count, window, -, hwindow, hasked⟩ := Peer.connect_eq_ok hconnect
  obtain ⟨_, width, _, -, hgrantedWindow, -, hgranted⟩ := Peer.accept_eq_ok haccept
  have hrequests := (Party.requests_of_asked hasked).steps halone
  rw [← hslot, ← show near.peer.settings = slot.settings from hrequests.settings] at hcarries
  have hrequest := hrequests.eq_request (.inl ⟨datagram, hdatagram, header, hcarries⟩)
    (Command.tag_of_body hbody)
  rw [hrequest] at hbody
  obtain rfl : slot.offer count window context = offer := Body.connect.inj hbody
  subst hcontext
  subst hmoment
  constructor
  · refine Party.Follows.steps (fun _ ↦ ?_) (fun _ hmoment ↦ hmoment) halone
    have hsettings : peer.settings = slot.settings := congrArg Terms.settings hasked.terms
    have hbought : peer.window = window := congrArg Terms.window hasked.terms
    change peer.settings.peerWindow 0 context.outgoingBandwidth = .ok peer.window
    rw [hsettings, hbought]
    exact hwindow
  · intro _
    have hsettings : granted.settings = other.settings := congrArg Terms.settings hgranted.terms
    have hbought : granted.window = width := congrArg Terms.window hgranted.terms
    change granted.settings.peerWindow context.incomingBandwidth moment.outgoingBandwidth =
      .ok granted.window
    rw [hsettings, hbought]
    exact hgrantedWindow

/-- As long as it waits, each side has the window of what it was told last: nothing, as far as
the asking side is concerned, and the bandwidth in the request as far as the granting one is. -/
theorem Arises.follows (h : Arises settings nearCaps farCaps conversation) :
    conversation.near.Follows nearCaps ⟨0, 0⟩ ∧ conversation.far.Follows farCaps nearCaps := by
  obtain ⟨start, hopens, hrun⟩ := h
  induction hrun with
  | refl => exact hopens.follows
  | tail _ hstep ih =>
    cases hstep with
    | near hstep => exact ⟨ih.1.step (fun _ hmoment ↦ hmoment) hstep, ih.2⟩
    | far hstep => exact ⟨ih.1, ih.2.step (fun _ hmoment ↦ hmoment) hstep⟩

/-- The window of the asking side is the smaller one of its own and of the one in the grant. -/
theorem Settling.near_window (h : conversation.Settling deal)
    (hfair : deal.Fair settings farCaps.incoming) (hsound : settings.Sound)
    (hfollows : conversation.near.Follows nearCaps ⟨0, 0⟩) {after : Conversation}
    (hstep : Advances nearCaps farCaps conversation after) {terms : Terms}
    (hreported : after.near.established = conversation.near.established ++ [terms]) :
    settings.peerWindow (Settings.tighterBandwidth farCaps.incoming
      (conversation.near.lastCaps ⟨0, 0⟩).incoming) nearCaps.outgoing = .ok terms.window := by
  cases hstep with
  | far _ => simp at hreported
  | @near near far after hstep =>
    obtain ⟨datagram, hdatagram, header, command, context, peer, hcarries, hreacts, rfl⟩ :=
      hstep.exists_hear hreported
    cases hreacts with
    | ended hevent => exact absurd rfl hevent
    | confirmed hbefore =>
      obtain ⟨hconnecting, -⟩ := h.near.waits_of_isHandshaking (by rw [hbefore]; rfl)
      cases hbefore.symm.trans hconnecting
    | granted hbefore hbody _ _ hwindow _ hterms =>
      have hwaiting : near.peer.state.isHandshaking = true := by
        rw [hbefore]
        rfl
      obtain ⟨-, hlasting, hnone⟩ := h.near.waits_of_isHandshaking hwaiting
      obtain rfl := h.answer_eq hnone hdatagram hcarries hbody
      have hsettings : near.peer.settings = settings :=
        (congrArg Terms.settings hlasting).trans hfair.asked_settings
      have hown := hfollows hwaiting
      rw [hsettings] at hown hwindow
      obtain ⟨answered, hanswered, hlower, hupper⟩ := hsound.windowFor_eq farCaps.incoming
      have hsame := hanswered.symm.trans hfair.answer_window
      rw [Except.ok.injEq] at hsame
      rw [← hsame, hsound.clampWindow_of_within hlower hupper, Except.ok.injEq] at hwindow
      rw [hterms, ← hwindow]
      exact hsound.peerWindow_tighter hanswered hown

theorem Settling.far_window (h : conversation.Settling deal)
    (hfair : deal.Fair settings farCaps.incoming)
    (hfollows : conversation.far.Follows farCaps nearCaps) {after : Conversation}
    (hstep : Advances nearCaps farCaps conversation after) {terms : Terms}
    (hreported : after.far.established = conversation.far.established ++ [terms]) :
    settings.peerWindow (conversation.far.lastCaps nearCaps).incoming farCaps.outgoing =
      .ok terms.window := by
  cases hstep with
  | near _ => simp at hreported
  | @far near far after hstep =>
    obtain ⟨datagram, hdatagram, header, command, context, peer, hcarries, hreacts, rfl⟩ :=
      hstep.exists_hear hreported
    cases hreacts with
    | ended hevent => exact absurd rfl hevent
    | granted hbefore =>
      obtain ⟨hgranting, -⟩ := h.far.waits_of_isHandshaking (by rw [hbefore]; rfl)
      cases hbefore.symm.trans hgranting
    | confirmed hbefore _ _ _ _ _ hterms =>
      have hwaiting : far.peer.state.isHandshaking = true := by
        rw [hbefore]
        rfl
      obtain ⟨-, hlasting, -⟩ := h.far.waits_of_isHandshaking hwaiting
      have hsettings : far.peer.settings = settings :=
        (congrArg Terms.settings hlasting).trans hfair.granted_settings
      have hown := hfollows hwaiting
      rw [hsettings] at hown
      rw [hterms]
      exact hown

/-! ## The agreement -/

/-- The granting side reports the connection only after the other one has, and both report it
on the same terms. When a side reports it, its window is the one that its own outgoing
bandwidth and the incoming bandwidth of the other host buy: for the granting side the one that
it was told last, in the request or since; for the asking side the one in the grant or one that
was announced to it before, whichever is tighter. -/
theorem Arises.established_agree (h : Arises settings nearCaps farCaps conversation)
    (hsound : settings.Sound) :
    (conversation.far.established ≠ [] → conversation.near.established ≠ []) ∧
      (∀ near ∈ conversation.near.established, ∀ far ∈ conversation.far.established,
        near.Agree far) ∧
      ∀ after, Advances nearCaps farCaps conversation after → ∀ terms,
        (after.near.established = conversation.near.established ++ [terms] →
          settings.peerWindow (Settings.tighterBandwidth farCaps.incoming
            (conversation.near.lastCaps ⟨0, 0⟩).incoming) nearCaps.outgoing = .ok terms.window) ∧
        (after.far.established = conversation.far.established ++ [terms] →
          settings.peerWindow (conversation.far.lastCaps nearCaps).incoming farCaps.outgoing =
            .ok terms.window) := by
  obtain ⟨deal, hfair, hsettling⟩ := h.settling
  obtain ⟨hnear, hfar⟩ := h.follows
  refine ⟨hsettling.precedes, fun near hmem far hother ↦ ?_, fun after hstep terms ↦ ⟨?_, ?_⟩⟩
  · exact hfair.agree hsound (hsettling.near.agreed_of_mem hmem)
      (hsettling.far.agreed_of_mem hother)
  · exact hsettling.near_window hfair hsound hnear hstep
  · exact hsettling.far_window hfair hfar hstep

/-- A vacant slot asks for a connection with two channels, and another one grants it. -/
def greeting : Option Conversation :=
  match (Peer.vacant 3 {}).connect ⟨"10.0.0.1", 4000⟩ 2 7 ⟨1000, 300000, 200000⟩ with
  | .error _ => none
  | .ok peer =>
    let near := Party.compose { peer := peer } 1000 false
    match near.composed with
    | [] => none
    | datagram :: _ =>
      match Datagram.decode datagram with
      | .error _ => none
      | .ok (header, commands) =>
        match commands with
        | [] => none
        | command :: _ =>
          match command.body with
          | .connect offer =>
            match (Peer.vacant 5 {}).accept ⟨"10.0.0.2", 4000⟩ header command offer
                ⟨1010, 300000, 400000⟩ with
            | .error _ => none
            | .ok granted => some ⟨near, { peer := granted }⟩
          | _ => none

theorem opens_of_greeting (h : greeting = some conversation) :
    Opens {} ⟨300000, 200000⟩ ⟨300000, 400000⟩ conversation := by
  unfold greeting at h
  split at h
  · cases h
  · rename_i peer hconnect
    dsimp only at h
    split at h
    · cases h
    · rename_i datagram more hcomposed
      split at h
      · cases h
      · rename_i header commands hdecode
        split at h
        · cases h
        · rename_i command others
          split at h
          · rename_i offer hbody
            split at h
            · cases h
            · rename_i granted haccept
              cases h
              exact .intro rfl rfl hconnect (.single .compose)
                (hcomposed ▸ List.mem_cons_self)
                ⟨_, ⟨datagram, .inl rfl, hdecode⟩, List.mem_cons_self⟩ hbody rfl rfl haccept
          · cases h

def granted : Option Conversation := greeting.bind (·.move? (.far, .compose 1010 false))

def acceptance : Connection.Side × Party.Move := (.near, .hear 0 1 ⟨1020, 300000, 200000⟩)

/-- The asking slot acknowledges the grant and then announces half of its incoming bandwidth,
which the granting one hears first. -/
def share : List (Connection.Side × Party.Move) :=
  [(.near, .compose 1030 false), (.near, .announce 150000 200000), (.near, .compose 1040 false),
    (.far, .hear 2 0 ⟨1050, 300000, 400000⟩)]

def confirmation : Connection.Side × Party.Move := (.far, .hear 1 0 ⟨1060, 300000, 400000⟩)

theorem Arises.moves? {moves : List (Connection.Side × Party.Move)}
    (h : Arises settings nearCaps farCaps conversation)
    (hpermits : ∀ move ∈ moves, ∀ conversation : Conversation,
      conversation.Permits (fun conversation ↦ .steady nearCaps conversation.IsComplete)
        (fun conversation ↦ .granting farCaps conversation.IsComplete) move)
    {after : Conversation} (hmoves : conversation.moves? moves = some after) :
    Arises settings nearCaps farCaps after := by
  obtain ⟨start, hopens, hrun⟩ := h
  exact ⟨start, hopens, hrun.trans (run_of_moves? hpermits hmoves)⟩

/-- The course of the handshake: before and after the asking slot hears the grant, and before
and after the granting one hears that it was accepted. -/
def greeted : Option (Conversation × Conversation × Conversation × Conversation) := do
  let offered ← granted
  let accepted ← offered.move? acceptance
  let shared ← accepted.moves? share
  let confirmed ← shared.move? confirmation
  return (offered, accepted, shared, confirmed)

theorem exists_greeted :
    ∃ offered accepted shared confirmed near far, granted = some offered ∧
      offered.move? acceptance = some accepted ∧ accepted.moves? share = some shared ∧
      shared.move? confirmation = some confirmed ∧ offered.near.lastCaps ⟨0, 0⟩ = ⟨0, 0⟩ ∧
      shared.far.lastCaps ⟨300000, 200000⟩ = ⟨150000, 200000⟩ ∧
      accepted.near.established = offered.near.established ++ [near] ∧
      confirmed.far.established = shared.far.established ++ [far] ∧
      confirmed.near.established = [near] ∧ confirmed.far.established = [far] ∧
      far.window = 8192 := by
  have hrun : greeted.any fun (offered, accepted, shared, confirmed) ↦
      ∃ near ∈ confirmed.near.established, ∃ far ∈ confirmed.far.established,
        offered.near.lastCaps ⟨0, 0⟩ = ⟨0, 0⟩ ∧
        shared.far.lastCaps ⟨300000, 200000⟩ = ⟨150000, 200000⟩ ∧
        accepted.near.established = offered.near.established ++ [near] ∧
        confirmed.far.established = shared.far.established ++ [far] ∧
        confirmed.near.established = [near] ∧ confirmed.far.established = [far] ∧
        far.window = 8192 := by
    decide +kernel
  obtain ⟨⟨offered, accepted, shared, confirmed⟩, hgreeted, hcomplete⟩ :=
    (Option.any_eq_true _ _).mp hrun
  obtain ⟨near, -, far, -, hreports⟩ := of_decide_eq_true hcomplete
  unfold greeted at hgreeted
  simp only [Option.bind_eq_bind, Option.bind_eq_some_iff, Option.pure_def, Option.some.injEq,
    Prod.mk.injEq] at hgreeted
  obtain ⟨_, hgranted, _, haccepted, _, hshared, _, hconfirmed, rfl, rfl, rfl, rfl⟩ := hgreeted
  exact ⟨_, _, _, _, near, far, hgranted, haccepted, hshared, hconfirmed, hreports⟩

theorem arises_of_granted (h : granted = some conversation) :
    Arises {} ⟨300000, 200000⟩ ⟨300000, 400000⟩ conversation := by
  obtain ⟨start, hgreeting, hmove⟩ := Option.bind_eq_some_iff.mp h
  exact ⟨start, opens_of_greeting hgreeting, .single (step_of_move? (by exact True.intro) hmove)⟩

theorem advances_of_acceptance {after : Conversation}
    (h : conversation.move? acceptance = some after) :
    Advances ⟨300000, 200000⟩ ⟨300000, 400000⟩ conversation after :=
  step_of_move? (by exact rfl) h

theorem advances_of_confirmation {after : Conversation}
    (h : conversation.move? confirmation = some after) :
    Advances ⟨300000, 200000⟩ ⟨300000, 400000⟩ conversation after :=
  step_of_move? (by exact rfl) h

theorem arises_of_share {after : Conversation}
    (h : Arises {} ⟨300000, 200000⟩ ⟨300000, 400000⟩ conversation)
    (hmoves : conversation.moves? share = some after) :
    Arises {} ⟨300000, 200000⟩ ⟨300000, 400000⟩ after := by
  refine h.moves? (fun move hmove other ↦ ?_) hmoves
  simp only [share, List.mem_cons, List.not_mem_nil, or_false] at hmove
  rcases hmove with rfl | rfl | rfl | rfl
  all_goals first | exact True.intro | exact rfl

/-- Both slots report the connection on the same terms, the granting one with the window of the
share. -/
theorem established_agree_greeted :
    ∃ (offered accepted shared confirmed : Conversation) (near far : Terms),
      Settings.Sound {} ∧ Arises {} ⟨300000, 200000⟩ ⟨300000, 400000⟩ offered ∧
      offered.move? acceptance = some accepted ∧ accepted.moves? share = some shared ∧
      shared.move? confirmation = some confirmed ∧ confirmed.near.established = [near] ∧
      confirmed.far.established = [far] ∧ near.Agree far ∧ near.window = 12288 ∧
      far.window = 8192 := by
  obtain ⟨offered, accepted, shared, confirmed, near, far, hgranted, haccepted, hshared,
    hconfirmed, huntold, htold, hnear, hfar, hnearonce, hfaronce, -⟩ := exists_greeted
  have hsound : Settings.Sound {} := ⟨by decide, by decide, by decide⟩
  have hoffers := arises_of_granted hgranted
  have haccepts := advances_of_acceptance haccepted
  have hshares := arises_of_share (hoffers.step haccepts) hshared
  have hconfirms := advances_of_confirmation hconfirmed
  obtain ⟨-, hagree, -⟩ := (hshares.step hconfirms).established_agree hsound
  have hnearwindow := ((hoffers.established_agree hsound).2.2 accepted haccepts near).1 hnear
  have hfarwindow := ((hshares.established_agree hsound).2.2 confirmed hconfirms far).2 hfar
  rw [huntold, show Settings.peerWindow {} (Settings.tighterBandwidth 300000 0) 200000 =
    .ok 12288 by decide +kernel, Except.ok.injEq] at hnearwindow
  rw [htold, show Settings.peerWindow {} 150000 400000 = .ok 8192 by decide +kernel,
    Except.ok.injEq] at hfarwindow
  exact ⟨offered, accepted, shared, confirmed, near, far, hsound, hoffers, haccepted, hshared,
    hconfirmed, hnearonce, hfaronce, hagree near (hnearonce ▸ List.mem_cons_self) far
      (hfaronce ▸ List.mem_cons_self), hnearwindow.symm, hfarwindow.symm⟩

/-- Although no host has changed its bandwidths, the granting slot has the window of the share
that was announced to it, not the one of the bandwidth at which the asking slot receives. -/
theorem window_ne_of_share :
    ∃ (conversation : Conversation) (near far : Terms), Settings.Sound {} ∧
      Arises {} ⟨300000, 200000⟩ ⟨300000, 400000⟩ conversation ∧
      conversation.near.established = [near] ∧ conversation.far.established = [far] ∧
      far.window = 8192 ∧ Settings.peerWindow {} 300000 400000 = .ok 16384 := by
  obtain ⟨offered, accepted, shared, confirmed, near, far, hgranted, haccepted, hshared,
    hconfirmed, -, -, -, -, hnear, hfar, hwindow⟩ := exists_greeted
  have haccepts := (arises_of_granted hgranted).step (advances_of_acceptance haccepted)
  have hconfirms := (arises_of_share haccepts hshared).step (advances_of_confirmation hconfirmed)
  exact ⟨confirmed, near, far, ⟨by decide, by decide, by decide⟩, hconfirms, hnear, hfar,
    hwindow, by decide +kernel⟩

end Conversation

end ReliableDatagram
