import ReliableDatagram.Proofs.Connection.Agreement
import ReliableDatagram.Proofs.Peer.Budget

/-!
# Datagrams between hosts of different settings

One side asks for a connection and the other one grants it, each under settings of its own.
Each side brings the datagram size that it hears of within its own bounds, and the asking side
goes no higher than what it has offered. So a side sends no more than the other host receives,
unless even its least datagrams are larger than that.
-/

namespace ReliableDatagram

/-- The datagram size that a command offers or answers. -/
def Command.mtu? (command : Command) : Option UInt16 :=
  match command.body with
  | .connect handshake | .verifyConnect handshake => some handshake.mtu
  | _ => none

theorem Command.mtu?_eq_none {command : Command} (hconnect : command.tag ≠ .connect)
    (hverify : command.tag ≠ .verifyConnect) : command.mtu? = none := by
  unfold mtu?
  split
  · rename_i hbody
    exact absurd (Command.tag_of_body hbody) hconnect
  · rename_i hbody
    exact absurd (Command.tag_of_body hbody) hverify
  · rfl

namespace Settings

variable {near far : Settings} {granted nearest : UInt16}

/-- The size that is granted to a side is within what its host receives, unless the least size
of the granting side is not. -/
theorem granted_le_iff (hdefault : near.mtu.contains near.defaultMtu = true)
    (hgranted : far.clampMtu near.defaultMtu = .ok granted) :
    granted ≤ near.mtu.upper ↔ far.mtu.lower ≤ near.mtu.upper := by
  obtain ⟨hbounds, hvalue⟩ := clampMtu_eq_ok hgranted
  rw [Bounds.contains_iff] at hdefault
  simp only [UInt16.le_iff_toNat_le] at hdefault ⊢
  omega

/-- The size that a side arrives at is within what the granting host receives, and no larger
than what was granted, unless the least size of the side is larger than all that. -/
theorem agreed_le_iff (hdefault : near.mtu.contains near.defaultMtu = true)
    (hgranted : far.clampMtu near.defaultMtu = .ok granted)
    (hnearest : near.clampMtu granted = .ok nearest) :
    (min nearest near.defaultMtu ≤ far.mtu.upper ↔ near.mtu.lower ≤ far.mtu.upper) ∧
      (min nearest near.defaultMtu ≤ granted ↔ near.mtu.lower ≤ far.mtu.upper) := by
  obtain ⟨hfar, hanswer⟩ := clampMtu_eq_ok hgranted
  obtain ⟨hnear, hvalue⟩ := clampMtu_eq_ok hnearest
  rw [Bounds.contains_iff] at hdefault
  simp only [UInt16.le_iff_toNat_le, UInt16.toNat_min] at hdefault ⊢
  omega

end Settings

/-- A host that receives as much as the connection allows cuts no datagram off. -/
theorem Peer.take_of_compose {peer : Peer} {now : Stamp} {check : Bool} {bytes : Bytes}
    {limit : UInt16} (h : (peer.compose now check).1 = .ok (.datagram bytes))
    (hmtu : peer.state.isActive = true → peer.mtu ≤ limit) : bytes.take limit.toNat = bytes := by
  have hactive : peer.state.isActive = true := by
    by_contra hover
    rw [compose_of_not_active (Bool.eq_false_iff.mpr hover)] at h
    cases h
  have hlimit := UInt16.le_iff_toNat_le.mp (hmtu hactive)
  exact List.take_of_length_le (Nat.le_trans (length_le_of_compose h) hlimit)

/-! ## One side -/

namespace Party

/-- How large the datagrams of a side are that waits for the connection in this state: as it
has offered until the connection is complete, as agreed from then on. -/
structure Sized (waiting : PeerState) (offered agreed : UInt16) (party : Party) : Prop where
  waits : party.peer.state.isHandshaking = true →
    party.peer.state = waiting ∧ party.established = []
  unsettled : party.peer.state.isActive = true → party.established = [] → party.peer.mtu = offered
  settled : party.peer.state.isActive = true → party.established ≠ [] → party.peer.mtu = agreed
  offers : ∀ command, party.Utters command → ∀ mtu, command.mtu? = some mtu → mtu = offered

variable {waiting : PeerState} {offered agreed : UInt16} {party after : Party} {rules : Rules}
  {checksums : Bool} {reaching : List Bytes} {command : Command}

/-- No step but the first one offers or answers a datagram size. -/
theorem Adds.mtu? (h : Adds rules checksums reaching party after command) :
    command.mtu? = none := by
  have hroutine (hroutine : command.isRoutine = true) : command.mtu? = none := by
    obtain ⟨-, hconnect, hverify, -⟩ := Command.tag_of_isRoutine hroutine
    exact Command.mtu?_eq_none hconnect hverify
  cases h with
  | routine _ hsent => exact hroutine hsent
  | farewell hfarewell => exact hroutine (Command.isRoutine_of_isFarewell hfarewell)
  | announced _ _ hbody | configured _ _ hbody => rw [Command.mtu?, hbody]
  | acknowledged _ _ _ _ _ hcommand =>
    rw [hcommand]
    rfl

theorem Sized.offers_of_step (h : Sized waiting offered agreed party)
    (hstep : Step rules checksums reaching party after) :
    ∀ command, after.Utters command → ∀ mtu, command.mtu? = some mtu → mtu = offered := by
  intro command hutters mtu hmtu
  rcases hstep.utters hutters with hold | hnew
  · exact h.offers command hold mtu hmtu
  · rw [hnew.mtu?] at hmtu
    cases hmtu

/-- Nothing is reported, and a side that goes on keeps its datagram size. -/
theorem Sized.frame (h : Sized waiting offered agreed party)
    (hstep : Step rules checksums reaching party after)
    (hreported : after.established = party.established)
    (hstate : after.peer.state = party.peer.state ∨ after.peer.state.isActive = false ∨
      party.peer.state = .connected ∧ after.peer.state.isHandshaking = false)
    (hmtu : after.peer.state.isActive = true → after.peer.mtu = party.peer.mtu) :
    Sized waiting offered agreed after := by
  have hwas (hactive : after.peer.state.isActive = true) :
      party.peer.state.isActive = true := by
    rcases hstate with hsame | hover | ⟨hconnected, -⟩
    · exact hsame ▸ hactive
    · rw [hover] at hactive
      cases hactive
    · rw [hconnected]
      rfl
  refine {
    waits := fun hhandshaking ↦ ?_
    unsettled := fun hactive hnone ↦
      (hmtu hactive).trans (h.unsettled (hwas hactive) (hreported ▸ hnone))
    settled := fun hactive hsome ↦
      (hmtu hactive).trans (h.settled (hwas hactive) (hreported ▸ hsome))
    offers := h.offers_of_step hstep }
  rcases hstate with hsame | hover | ⟨-, hleft⟩
  · rw [hreported, hsame]
    exact h.waits (hsame ▸ hhandshaking)
  · rw [PeerState.isHandshaking_of_not_active hover] at hhandshaking
    cases hhandshaking
  · rw [hleft] at hhandshaking
    cases hhandshaking

/-- The connection is complete, and the side keeps to the agreed size. -/
theorem Sized.joined (h : Sized waiting offered agreed party)
    (hstep : Step rules checksums reaching party after) (hsome : after.established ≠ [])
    (hstate : after.peer.state = .connected) (hmtu : after.peer.mtu = agreed) :
    Sized waiting offered agreed after where
  waits hhandshaking := by
    rw [hstate] at hhandshaking
    cases hhandshaking
  unsettled _ hnone := absurd hnone hsome
  settled _ _ := hmtu
  offers := h.offers_of_step hstep

/-- The side that grants has offered what is agreed; the other one goes no higher than what it
has offered when it accepts an answer. -/
theorem Sized.hear (h : Sized waiting offered agreed party) {context : Context}
    {event : Option PeerEvent} {peer : Peer}
    (hconfirms : waiting = .acknowledgingConnect → offered = agreed)
    (hgrants : waiting = .connecting → ∀ answer mtu, command.body = .verifyConnect answer →
      party.peer.settings.clampMtu answer.mtu = .ok mtu → min mtu offered = agreed)
    (hreacts : party.peer.Reacts command context event peer)
    (hstep : Step rules checksums reaching party (party.hear command event peer)) :
    Sized waiting offered agreed (party.hear command event peer) := by
  have hsilent (hevent : event ≠ some .connected) :
      (party.hear command event peer).established = party.established := by
    rw [Party.hear, if_neg hevent, List.append_nil]
  have hjoins (hevent : event = some .connected) :
      (party.hear command event peer).established ≠ [] := by
    rw [Party.hear, if_pos hevent]
    exact List.concat_ne_nil _ _
  have hsame (hevent : event ≠ some .connected) (hstate : peer.state = party.peer.state)
      (hmtu : peer.mtu = party.peer.mtu) :
      Sized waiting offered agreed (party.hear command event peer) :=
    h.frame hstep (hsilent hevent) (.inl hstate) fun _ ↦ hmtu
  cases hreacts with
  | same _ _ hstate hterms => exact hsame (by simp) hstate (congrArg Terms.mtu hterms)
  | limited _ _ hstate hterms => exact hsame (by simp) hstate (congrArg Terms.mtu hterms)
  | throttled _ hstate hterms => exact hsame (by simp) hstate (congrArg Terms.mtu hterms)
  | ended hevent hstate _ _ hkept =>
    have hleaves (hleft : peer.state = .acknowledgingDisconnect) :
        (party.hear command event peer).peer.state.isHandshaking = false := by
      rw [Party.hear, hleft]
      rfl
    exact h.frame hstep (hsilent hevent) (.inr (hstate.imp_right (And.imp_right hleaves)))
      fun hactive ↦ congrArg Terms.mtu (hkept hactive)
  | confirmed hbefore _ _ _ _ hstate hterms =>
    obtain ⟨hwaiting, hnone⟩ := h.waits (by rw [hbefore]; rfl)
    refine h.joined hstep (hjoins rfl) hstate ?_
    have hmtu := h.unsettled (by rw [hbefore]; rfl) hnone
    exact ((congrArg Terms.mtu hterms).trans hmtu).trans (hconfirms (hwaiting.symm.trans hbefore))
  | granted hbefore hbody _ hmtu _ hstate hterms =>
    obtain ⟨hwaiting, hnone⟩ := h.waits (by rw [hbefore]; rfl)
    refine h.joined hstep (hjoins rfl) hstate ((congrArg Terms.mtu hterms).trans ?_)
    have hoffered := h.unsettled (by rw [hbefore]; rfl) hnone
    rw [← hgrants (hwaiting.symm.trans hbefore) _ _ hbody hmtu, ← hoffered]

theorem Sized.step (h : Sized waiting offered agreed party)
    (hconfirms : waiting = .acknowledgingConnect → offered = agreed)
    (hgrants : waiting = .connecting → ∀ datagram ∈ reaching, ∀ header command,
      Datagram.Carries checksums datagram header command →
        ∀ answer mtu, command.body = .verifyConnect answer →
          party.peer.settings.clampMtu answer.mtu = .ok mtu → min mtu offered = agreed)
    (hstep : Step rules checksums reaching party after) :
    Sized waiting offered agreed after := by
  cases hstep.effect with
  | kept _ hreported _ hstate hterms =>
    exact h.frame hstep hreported hstate fun hactive ↦ congrArg Terms.mtu (hterms hactive)
  | configured _ hafter =>
    subst hafter
    exact h.frame hstep rfl (.inl (Peer.queueControl_state ..)) fun _ ↦
      congrArg Terms.mtu (Peer.terms_queueControl ..)
  | heard _ hdatagram hcarries hhandle hafter =>
    subst hafter
    exact h.hear hconfirms (fun hwaiting ↦ hgrants hwaiting _ hdatagram _ _ hcarries)
      (Peer.handle_reacts hhandle) hstep

/-- A side that has asked for a connection, and that nothing has reached yet. -/
theorem sized_of_connect {slot peer : Peer} {address : Address} {channelCount : Nat}
    {challenge : UInt32} {context : Context} (agreed : UInt16)
    (h : slot.connect address channelCount challenge context = .ok peer)
    (halone : Relation.ReflTransGen (Step rules checksums []) { peer := peer } party) :
    party.peer.settings = slot.settings ∧
      Sized .connecting slot.settings.defaultMtu agreed party := by
  induction halone with
  | refl =>
    obtain ⟨count, window, -, -, hasked⟩ := Peer.connect_eq_ok h
    refine ⟨congrArg Terms.settings hasked.terms, {
      waits := fun _ ↦ ⟨hasked.state, rfl⟩
      unsettled := fun _ _ ↦ congrArg Terms.mtu hasked.terms
      settled := fun _ hsome ↦ absurd rfl hsome
      offers := fun command hutters mtu hmtu ↦ ?_ }⟩
    rcases hutters with ⟨datagram, hnone, -⟩ | ⟨acknowledgement, hmem, -⟩ |
      ⟨outgoing, hmem, -⟩ | hmem
    · cases hnone
    · rw [hasked.acknowledgements] at hmem
      cases hmem
    · rw [hasked.unreliable] at hmem
      cases hmem
    · rw [hasked.outstanding] at hmem
      rw [List.mem_singleton.mp hmem] at hmtu
      exact (Option.some.inj hmtu).symm
  | tail _ hstep ih =>
    refine ⟨hstep.settings.trans ih.1, ih.2.step nofun (fun _ datagram hmem ↦ ?_) hstep⟩
    cases hmem

/-- A side that has granted a connection. -/
theorem sized_of_accept {slot peer : Peer} {address : Address} {header : Header}
    {request : Command} {offer : Handshake} {context : Context}
    (h : slot.accept address header request offer context = .ok peer) :
    ∃ granted, slot.settings.clampMtu offer.mtu = .ok granted ∧
      Sized .acknowledgingConnect granted granted { peer := peer } := by
  obtain ⟨granted, window, answered, hmtu, -, -, hgranted⟩ := Peer.accept_eq_ok h
  refine ⟨granted, hmtu, {
    waits := fun _ ↦ ⟨hgranted.state, rfl⟩
    unsettled := fun _ _ ↦ congrArg Terms.mtu hgranted.terms
    settled := fun _ _ ↦ congrArg Terms.mtu hgranted.terms
    offers := fun command hutters mtu hanswered ↦ ?_ }⟩
  rcases hutters with ⟨datagram, hnone, -⟩ | ⟨acknowledgement, -, rfl⟩ |
    ⟨outgoing, hmem, -⟩ | hmem
  · cases hnone
  · cases hanswered
  · rw [hgranted.unreliable] at hmem
    cases hmem
  · rw [hgranted.outstanding] at hmem
    rw [List.mem_singleton.mp hmem] at hanswered
    exact (Option.some.inj hanswered).symm

end Party

/-! ## Both sides -/

namespace Conversation

variable {nearSettings farSettings : Settings} {granted nearest : UInt16}
  {conversation after : Conversation}

/-- A handshake between hosts of different settings as it begins: this side has asked for the
connection, alone so far, and the other one grants it upon the request in a datagram of this
side. -/
inductive Meets (nearSettings farSettings : Settings) : Conversation → Prop where
  | intro {slot peer : Peer} {address source : Address} {channelCount : Nat} {challenge : UInt32}
      {context moment : Context} {near : Party} {other granted : Peer} {datagram : Bytes}
      {header : Header} {command : Command} {offer : Handshake}
      (hslot : slot.settings = nearSettings)
      (hconnect : slot.connect address channelCount challenge context = .ok peer)
      (halone : Relation.ReflTransGen (Party.Step .free nearSettings.checksums [])
        { peer := peer } near)
      (hdatagram : datagram ∈ near.composed)
      (hcarries : Datagram.Carries nearSettings.checksums datagram header command)
      (hbody : command.body = .connect offer) (hother : other.settings = farSettings)
      (haccept : other.accept source header command offer moment = .ok granted) :
      Meets nearSettings farSettings ⟨near, { peer := granted }⟩

/-- What can come of a handshake between hosts of different settings. -/
def Encounters (nearSettings farSettings : Settings) (conversation : Conversation) : Prop :=
  ∃ start, Meets nearSettings farSettings start ∧
    Run (fun _ ↦ .free) (fun _ ↦ .free) start conversation

/-- The datagram sizes of both sides, when this size was granted and is brought within the
bounds of this side as the nearest one. -/
structure Sizing (nearSettings : Settings) (granted nearest : UInt16)
    (conversation : Conversation) : Prop where
  settings : conversation.near.peer.settings = nearSettings
  near : conversation.near.Sized .connecting nearSettings.defaultMtu
    (min nearest nearSettings.defaultMtu)
  far : conversation.far.Sized .acknowledgingConnect granted granted

theorem Meets.sizing (h : Meets nearSettings farSettings conversation) :
    ∃ granted, farSettings.clampMtu nearSettings.defaultMtu = .ok granted ∧
      ∀ nearest, conversation.Sizing nearSettings granted nearest := by
  cases h with
  | @intro _ _ _ _ _ _ _ _ near _ _ datagram header command offer hslot hconnect halone hdatagram
      hcarries hbody hother haccept =>
    subst hslot hother
    obtain ⟨size, hsize, hfar⟩ := Party.sized_of_accept haccept
    have hnear (agreed : UInt16) := Party.sized_of_connect agreed hconnect halone
    obtain ⟨hsettings, hsized⟩ := hnear 0
    have hutters : near.Utters command :=
      .inl ⟨datagram, hdatagram, header, by rwa [hsettings]⟩
    have hoffer := hsized.offers command hutters offer.mtu (by rw [Command.mtu?, hbody])
    exact ⟨size, hoffer ▸ hsize, fun nearest ↦ ⟨hsettings, (hnear _).2, hfar⟩⟩

theorem Sizing.step (h : conversation.Sizing nearSettings granted nearest)
    (hnearest : nearSettings.clampMtu granted = .ok nearest)
    (hstep : Step (fun _ ↦ .free) (fun _ ↦ .free) conversation after) :
    after.Sizing nearSettings granted nearest := by
  cases hstep with
  | near hstep =>
    refine ⟨hstep.settings.trans h.settings, h.near.step nofun ?_ hstep, h.far⟩
    intro _ datagram hdatagram header command hcarries answer mtu hbody hmtu
    have hanswer := h.far.offers command (.inl ⟨datagram, hdatagram, header, hcarries⟩) answer.mtu
      (by rw [Command.mtu?, hbody])
    rw [h.settings, hanswer, hnearest] at hmtu
    cases hmtu
    rfl
  | far hstep => exact ⟨h.settings, h.near, h.far.step (fun _ ↦ rfl) nofun hstep⟩

theorem Encounters.sizing (h : Encounters nearSettings farSettings conversation)
    (hdefault : nearSettings.mtu.contains nearSettings.defaultMtu = true) :
    ∃ granted nearest, farSettings.clampMtu nearSettings.defaultMtu = .ok granted ∧
      nearSettings.clampMtu granted = .ok nearest ∧
        conversation.Sizing nearSettings granted nearest := by
  obtain ⟨start, hmeets, hrun⟩ := h
  obtain ⟨granted, hgranted, hstart⟩ := hmeets.sizing
  obtain ⟨hlower, hupper⟩ := Bounds.contains_iff.mp hdefault
  obtain ⟨nearest, hnearest⟩ : ∃ nearest, nearSettings.clampMtu granted = .ok nearest :=
    ⟨_, if_pos (UInt16.le_trans hlower hupper)⟩
  refine ⟨granted, nearest, hgranted, hnearest, ?_⟩
  induction hrun with
  | refl => exact hstart nearest
  | tail _ hstep ih => exact ih.step hnearest hstep

/-- As long as the connection lasts, the granting side keeps within what the other host
receives exactly if its least datagram size is, and so does the asking side once it is
connected, which then also keeps to the size that was granted. So if the bounds of both sides
overlap, no datagram is cut off on arrival. -/
theorem Encounters.sizes_fit_iff (h : Encounters nearSettings farSettings conversation)
    (hdefault : nearSettings.mtu.contains nearSettings.defaultMtu = true) :
    (conversation.near.peer.state.isActive = true → conversation.near.established ≠ [] →
      (conversation.near.peer.mtu ≤ farSettings.mtu.upper ↔
        nearSettings.mtu.lower ≤ farSettings.mtu.upper) ∧
      ∀ command answer, conversation.far.Utters command → command.body = .verifyConnect answer →
        (conversation.near.peer.mtu ≤ answer.mtu ↔
          nearSettings.mtu.lower ≤ farSettings.mtu.upper)) ∧
    (conversation.far.peer.state.isActive = true →
      (conversation.far.peer.mtu ≤ nearSettings.mtu.upper ↔
        farSettings.mtu.lower ≤ nearSettings.mtu.upper)) ∧
    (nearSettings.mtu.lower ≤ farSettings.mtu.upper → conversation.near.established ≠ [] →
      ∀ now check bytes, (conversation.near.peer.compose now check).1 = .ok (.datagram bytes) →
        bytes.take farSettings.mtu.upper.toNat = bytes) ∧
    (farSettings.mtu.lower ≤ nearSettings.mtu.upper →
      ∀ now check bytes, (conversation.far.peer.compose now check).1 = .ok (.datagram bytes) →
        bytes.take nearSettings.mtu.upper.toNat = bytes) := by
  obtain ⟨granted, nearest, hgranted, hnearest, hsizing⟩ := h.sizing hdefault
  obtain ⟨hreceives, hanswered⟩ := Settings.agreed_le_iff hdefault hgranted hnearest
  have hgrants := Settings.granted_le_iff hdefault hgranted
  have hfar (hactive : conversation.far.peer.state.isActive = true) :
      conversation.far.peer.mtu = granted := by
    by_cases hnone : conversation.far.established = []
    · exact hsizing.far.unsettled hactive hnone
    · exact hsizing.far.settled hactive hnone
  refine ⟨fun hactive hsome ↦ ?_, fun hactive ↦ ?_, ?_, ?_⟩
  · rw [hsizing.near.settled hactive hsome]
    refine ⟨hreceives, fun command answer hutters hbody ↦ ?_⟩
    rw [hsizing.far.offers command hutters answer.mtu (by rw [Command.mtu?, hbody])]
    exact hanswered
  · rw [hfar hactive]
    exact hgrants
  · intro hoverlap hsome now check bytes hcompose
    refine Peer.take_of_compose hcompose fun hactive ↦ ?_
    rw [hsizing.near.settled hactive hsome]
    exact hreceives.mpr hoverlap
  · intro hoverlap now check bytes hcompose
    refine Peer.take_of_compose hcompose fun hactive ↦ ?_
    rw [hfar hactive]
    exact hgrants.mpr hoverlap

/-- A vacant slot asks for a connection, and one of another host grants it. -/
def meeting (nearSettings farSettings : Settings) : Option Conversation :=
  match (Peer.vacant 3 nearSettings).connect ⟨"10.0.0.1", 4000⟩ 1 7 ⟨1000, 0, 0⟩ with
  | .error _ => none
  | .ok peer =>
    let near := Party.compose { peer := peer } 1000 false
    match near.composed with
    | [] => none
    | datagram :: _ =>
      match Datagram.decode datagram with
      | .error _ => none
      | .ok (header, commands) =>
        match commands with
        | [] => none
        | command :: _ =>
          match command.body with
          | .connect offer =>
            match (Peer.vacant 5 farSettings).accept ⟨"10.0.0.2", 4000⟩ header command offer
                ⟨1010, 0, 0⟩ with
            | .error _ => none
            | .ok granted => some ⟨near, { peer := granted }⟩
          | _ => none

theorem meets_of_meeting (h : meeting nearSettings farSettings = some conversation) :
    Meets nearSettings farSettings conversation := by
  unfold meeting at h
  split at h
  · cases h
  · rename_i peer hconnect
    dsimp only at h
    split at h
    · cases h
    · rename_i datagram more hcomposed
      split at h
      · cases h
      · rename_i header commands hdecode
        split at h
        · cases h
        · rename_i command others
          split at h
          · rename_i offer hbody
            split at h
            · cases h
            · rename_i granted haccept
              cases h
              exact .intro rfl hconnect (.single .compose) (hcomposed ▸ List.mem_cons_self)
                ⟨_, ⟨datagram, .inl rfl, hdecode⟩, List.mem_cons_self⟩ hbody rfl haccept
          · cases h

/-- The asking slot hears the grant, and the granting one its acknowledgement. -/
def met (nearSettings farSettings : Settings) : Option Conversation :=
  (meeting nearSettings farSettings).bind (·.moves? [
    (.far, .compose 1010 false),
    (.near, .hear 0 1 ⟨1020, 0, 0⟩),
    (.near, .compose 1030 false),
    (.far, .hear 1 0 ⟨1040, 0, 0⟩)])

theorem encounters_of_met (h : met nearSettings farSettings = some conversation) :
    Encounters nearSettings farSettings conversation := by
  obtain ⟨start, hmeeting, hmoves⟩ := Option.bind_eq_some_iff.mp h
  refine ⟨start, meets_of_meeting hmeeting, run_of_moves? (fun move hmove other ↦ ?_) hmoves⟩
  simp only [List.mem_cons, List.not_mem_nil, or_false] at hmove
  rcases hmove with rfl | rfl | rfl | rfl <;> exact True.intro

def narrow : Settings := { mtu := ⟨100, 600⟩, defaultMtu := 500 }

def broad : Settings := { mtu := ⟨1000, 2000⟩, defaultMtu := 1500 }

/-- The bounds of narrow settings overlap with the usual ones, and each side keeps within what
the other host receives. -/
theorem sizes_fit_iff_met : ∃ conversation, met narrow {} = some conversation ∧
    conversation.near.peer.mtu = 500 ∧ conversation.far.peer.mtu = 576 ∧
    conversation.near.peer.mtu ≤ (Settings.mtu {}).upper ∧
    conversation.far.peer.mtu ≤ narrow.mtu.upper ∧
    ∀ now check bytes, (conversation.far.peer.compose now check).1 = .ok (.datagram bytes) →
      bytes.take narrow.mtu.upper.toNat = bytes := by
  have hrun : (met narrow {}).any fun conversation ↦
      !conversation.near.established.isEmpty && conversation.near.peer.state.isActive &&
        conversation.far.peer.state.isActive && conversation.near.peer.mtu == 500 &&
          conversation.far.peer.mtu == 576 := by
    decide +kernel
  obtain ⟨conversation, hmet, hall⟩ := (Option.any_eq_true _ _).mp hrun
  simp only [Bool.and_eq_true, Bool.not_eq_true', List.isEmpty_eq_false_iff, beq_iff_eq] at hall
  obtain ⟨⟨⟨⟨hsome, hnear⟩, hfar⟩, hnearmtu⟩, hfarmtu⟩ := hall
  have hfits := (encounters_of_met hmet).sizes_fit_iff (by decide)
  exact ⟨conversation, hmet, hnearmtu, hfarmtu, (hfits.1 hnear hsome).1.mpr (by decide),
    (hfits.2.1 hfar).mpr (by decide), hfits.2.2.2 (by decide)⟩

/-- The bounds of broad and narrow settings do not overlap. The broad side arrives at a size that
is larger than what was granted, and than what the narrow host receives, so that its datagram is
cut off there. -/
theorem cut_off_apart : ∃ conversation bytes, Encounters broad narrow conversation ∧
    broad.mtu.contains broad.defaultMtu = true ∧ narrow.mtu.contains narrow.defaultMtu = true ∧
    conversation.near.established ≠ [] ∧ conversation.far.established ≠ [] ∧
    narrow.mtu.upper < conversation.near.peer.mtu ∧
    (∃ command ∈ conversation.near.heard, command.tag = .verifyConnect ∧
      ∃ answered, command.mtu? = some answered ∧ answered < conversation.near.peer.mtu) ∧
    (conversation.near.peer.compose 1050 false).1 = .ok (.datagram bytes) ∧
    bytes.take narrow.mtu.upper.toNat ≠ bytes := by
  have hrun : (met broad narrow).any fun conversation ↦
      !conversation.near.established.isEmpty && !conversation.far.established.isEmpty &&
        conversation.near.heard.any (fun command ↦
          command.tag == .verifyConnect && command.mtu? == some 600) &&
          conversation.near.composed.all (·.length ≤ 600) &&
            (conversation.near.peer.send 0 ⟨List.replicate 700 0, .reliable⟩).toOption.any
              fun peer ↦ peer.mtu == 1000 &&
                (Party.compose { conversation.near with peer := peer } 1050 false).composed.any
                  (600 < ·.length) := by
    decide +kernel
  obtain ⟨⟨near, far⟩, hmet, hall⟩ := (Option.any_eq_true _ _).mp hrun
  simp only [Bool.and_eq_true, Bool.not_eq_true', List.isEmpty_eq_false_iff, List.any_eq_true,
    List.all_eq_true, beq_iff_eq] at hall
  obtain ⟨⟨⟨⟨hnear, hfar⟩, command, hheard, htag, hanswer⟩, hshort⟩, hsends⟩ := hall
  obtain ⟨peer, hsend, hends⟩ := exists_of_any_toOption hsends
  simp only [Bool.and_eq_true, beq_iff_eq, List.any_eq_true, decide_eq_true_iff] at hends
  obtain ⟨hmtu, bytes, hcomposed, hlong⟩ := hends
  obtain ⟨start, hmeets, hrun⟩ := encounters_of_met hmet
  -- The datagram was not among those that the handshake took.
  have hcompose := (((Party.compose_frame _ 1050 false).2.2.2.2 bytes hcomposed).resolve_left
    fun hbefore ↦ absurd (of_decide_eq_true (hshort bytes hbefore)) (Nat.not_le_of_gt hlong))
  refine ⟨⟨{ near with peer := peer }, far⟩, bytes,
    ⟨start, hmeets, hrun.tail (.near (.operate (.send hsend)))⟩, by decide, by decide, hnear, hfar,
    ?_, ⟨command, hheard, htag, 600, hanswer, ?_⟩, hcompose, fun hwhole ↦ ?_⟩
  · rw [hmtu]
    decide
  · rw [hmtu]
    decide
  · have hlength := congrArg List.length hwhole
    rw [List.length_take, show narrow.mtu.upper.toNat = 600 from rfl] at hlength
    omega

end Conversation

end ReliableDatagram
