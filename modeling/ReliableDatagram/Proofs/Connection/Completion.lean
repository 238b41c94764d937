import ReliableDatagram.Proofs.Connection.Handshake
import ReliableDatagram.Proofs.Negotiation

/-!
# Completing a handshake

The side that has asked for a connection takes an answer for a grant if the answer names the
channels and the throttle that this side works with by then. While it waits and is not told how
to set the connection, only its own application can change one of them: it may configure the
throttle. The other side answers with what it was offered. So an honest answer completes the
connection if the throttle that was configured last, if any, is the offered one, and otherwise
it ends the connection.
-/

namespace ReliableDatagram

namespace Party

variable {rules : Rules} {checksums : Bool} {reaching : List Bytes} {party after : Party}
  {command : Command}

/-- What was composed is not forgotten. -/
theorem Step.composed_subset (h : Step rules checksums reaching party after) :
    party.composed ⊆ after.composed := by
  cases h with
  | @compose now check =>
    unfold Party.compose
    split
    · exact List.subset_append_left _ _
    · exact List.Subset.refl _
  | operate _ => exact List.Subset.refl _
  | announce _ => exact List.Subset.refl _
  | configure _ => exact List.Subset.refl _
  | hear _ _ _ _ => exact List.Subset.refl _

/-! ## Requests and grants -/

/-- Requests and grants are uttered at the beginning or never. -/
theorem Step.utters_handshake (hstep : Step rules checksums reaching party after)
    (htag : command.tag = .connect ∨ command.tag = .verifyConnect) (h : after.Utters command) :
    party.Utters command := by
  have hplain (hroutine : command.isRoutine = true) : False := by
    obtain ⟨-, hconnect, hverify, -⟩ := Command.tag_of_isRoutine hroutine
    exact htag.elim hconnect hverify
  rcases hstep.utters h with hold | hadds
  · exact hold
  · cases hadds with
    | routine _ hroutine => exact (hplain hroutine).elim
    | farewell hfarewell => exact (hplain (Command.isRoutine_of_isFarewell hfarewell)).elim
    | announced _ _ hbody =>
      rw [Command.tag_of_body hbody] at htag
      rcases htag with htag | htag <;> cases htag
    | configured _ _ hbody =>
      rw [Command.tag_of_body hbody] at htag
      rcases htag with htag | htag <;> cases htag
    | acknowledged _ _ _ _ _ hcommand =>
      rw [hcommand] at htag
      rcases htag with htag | htag <;> cases htag

theorem utters_handshake_of_steps
    (hsteps : Relation.ReflTransGen (Step rules checksums reaching) party after)
    (htag : command.tag = .connect ∨ command.tag = .verifyConnect) (h : after.Utters command) :
    party.Utters command := by
  induction hsteps with
  | refl => exact h
  | tail _ hstep ih => exact ih (hstep.utters_handshake htag h)

theorem settings_of_steps
    (hsteps : Relation.ReflTransGen (Step rules checksums reaching) party after) :
    after.peer.settings = party.peer.settings := by
  induction hsteps with
  | refl => rfl
  | tail _ hstep ih => exact hstep.settings.trans ih

/-- What a side that has granted a connection says by way of a grant. -/
theorem utters_granted {slot granted : Peer} {header : Header} {request : Command}
    {offer : Handshake} {mtu : UInt16} {window answered : UInt32} {context : Context}
    (hgranted : Peer.Granted slot header request offer mtu window answered context granted)
    (htag : command.tag = .verifyConnect) (h : Utters { peer := granted } command) :
    command.body = .verifyConnect (slot.answer mtu answered offer context) := by
  rcases h with ⟨datagram, hnone, -⟩ | ⟨acknowledgement, -, rfl⟩ | ⟨outgoing, hmem, -⟩ | hmem
  · cases hnone
  · cases htag
  · rw [hgranted.unreliable] at hmem
    cases hmem
  · rw [hgranted.outstanding] at hmem
    rw [List.mem_singleton.mp hmem]

/-! ## Waiting -/

/-- As long as this side waits for the answer to what it has asked for and is not told how to
set the connection, its terms are those that it has asked for, with the throttle that it has
configured since. -/
def Awaits (asked : Terms) (party : Party) : Prop :=
  party.peer.state = .connecting → (∀ command ∈ party.heard, command.configures = false) →
    party.peer.terms = { asked with throttle := party.lastThrottle asked.throttle }

variable {asked : Terms}

theorem Awaits.step (h : Awaits asked party)
    (hstep : Step rules checksums reaching party after) : Awaits asked after := by
  cases hstep.effect with
  | kept hheard _ hthrottle hstate hterms =>
    intro hafter huntold
    have hactive : after.peer.state.isActive = true := by
      rw [hafter]
      rfl
    rw [hterms hactive, hthrottle]
    refine h ?_ (hheard ▸ huntold)
    rcases hstate with hsame | hover | ⟨-, hleft⟩
    · exact hsame.symm.trans hafter
    · rw [hactive] at hover
      cases hover
    · rw [hafter] at hleft
      cases hleft
  | @configured parameters _ hafter =>
    subst hafter
    intro hafter huntold
    have hstate : (party.peer.configureThrottle parameters).state = party.peer.state :=
      Peer.queueControl_state ..
    have hconfigured : (party.peer.configureThrottle parameters).terms =
        { party.peer.terms with throttle := parameters } := Peer.terms_queueControl ..
    have hlast : (party.issue (party.peer.configureThrottle parameters)).lastThrottle
        asked.throttle = parameters :=
      party.lastThrottle_issue { party.peer with pacing := party.peer.pacing.configure parameters }
        (.throttleConfigure parameters) rfl rfl asked.throttle
    rw [h (hstate.symm.trans hafter) huntold] at hconfigured
    rw [hlast]
    exact hconfigured
  | @heard _ _ command _ _ peer _ _ _ hhandle hafter =>
    subst hafter
    intro hafter huntold
    have hplain := huntold command (List.mem_append_right _ List.mem_cons_self)
    have hbefore (hstate : peer.state = party.peer.state) (hterms : peer.terms = party.peer.terms) :
        peer.terms = { asked with throttle := party.lastThrottle asked.throttle } := by
      rw [hterms]
      exact h (hstate.symm.trans hafter) fun other hother ↦
        huntold other (List.mem_append_left _ hother)
    change peer.state = .connecting at hafter
    cases Peer.handle_reacts hhandle with
    | same _ _ hstate hterms => exact hbefore hstate hterms
    | confirmed _ _ _ _ _ hstate => cases hafter.symm.trans hstate
    | granted _ _ _ _ _ hstate => cases hafter.symm.trans hstate
    | ended _ hstate =>
      rcases hstate with hover | ⟨-, hleft⟩
      · rw [hafter] at hover
        cases hover
      · cases hafter.symm.trans hleft
    | limited hbody =>
      exact absurd (Command.tag_of_body hbody) (Command.tag_of_not_configures hplain).1
    | throttled hbody =>
      exact absurd (Command.tag_of_body hbody) (Command.tag_of_not_configures hplain).2

theorem Awaits.steps (h : Awaits asked party)
    (hsteps : Relation.ReflTransGen (Step rules checksums reaching) party after) :
    Awaits asked after := by
  induction hsteps with
  | refl => exact h
  | tail _ hstep ih => exact ih.step hstep

end Party

/-! ## Hearing the answer -/

namespace Peer

variable {peer : Peer} {grant : Command} {answer : Handshake}

/-- What handling a command reports is what performing it does. -/
theorem exists_handle_of_perform {command : Command} {context : Context} {handled : Handled}
    (h : peer.perform command context = .ok handled) (header : Header) :
    ∃ after, peer.handle header command context = .ok (handled.event, after) := by
  rw [handle, h]
  dsimp only [bind, Except.bind]
  split <;> exact ⟨_, rfl⟩

theorem perform_of_grant (peer : Peer) (hbody : grant.body = .verifyConnect answer)
    (context : Context) : peer.perform grant context = peer.handleVerifyConnect answer := by
  rw [perform, hbody]

/-- A peer that waits for another answer than this one ends the connection. -/
theorem handle_of_disagrees (hstate : peer.state = .connecting)
    (hbody : grant.body = .verifyConnect answer) (hdiffers : peer.agreesWith answer = false)
    (header : Header) (context : Context) :
    peer.handle header grant context = .ok (none, { peer with state := .zombie }) := by
  rw [handle, perform_of_grant peer hbody, handleVerifyConnect, if_neg (not_not_intro hstate),
    hdiffers]
  rfl

variable (hstate : peer.state = .connecting) (hbody : grant.body = .verifyConnect answer)
  (hagrees : peer.agreesWith answer = true)
  (hmtu : peer.settings.mtu.lower ≤ peer.settings.mtu.upper)

include hstate hbody hagrees hmtu

/-- A peer that waits for this answer is connected by it, if its settings bound the window. -/
theorem handle_of_agrees (hwindow : peer.settings.window.lower ≤ peer.settings.window.upper)
    (header : Header) (context : Context) :
    ∃ after, peer.handle header grant context = .ok (some .connected, after) ∧
      after.state = .connected := by
  obtain ⟨mtu, hclamped⟩ := Bounds.exists_clamp hmtu answer.mtu
  obtain ⟨window, hbounded⟩ := Bounds.exists_clamp hwindow answer.window
  have hgranted : ∃ handled, peer.handleVerifyConnect answer = .ok handled ∧
      handled.event = some .connected := by
    rw [handleVerifyConnect, if_neg (not_not_intro hstate), hagrees, Settings.clampMtu, hclamped,
      Settings.clampWindow, hbounded]
    exact ⟨_, rfl, rfl⟩
  obtain ⟨handled, hhandled, hevent⟩ := hgranted
  obtain ⟨after, hhandle⟩ := exists_handle_of_perform
    ((peer.perform_of_grant hbody context).trans hhandled) header
  rw [hevent] at hhandle
  refine ⟨after, hhandle, ?_⟩
  cases handle_reacts hhandle with
  | confirmed _ _ _ _ _ hafter => exact hafter
  | granted _ _ _ _ _ hafter => exact hafter
  | ended hother => exact absurd rfl hother

/-- A peer whose settings allow no window fails on the answer that it waits for. -/
theorem handle_of_no_window
    (hwindow : ¬ peer.settings.window.lower ≤ peer.settings.window.upper) (header : Header)
    (context : Context) : peer.handle header grant context = .error .invertedBounds := by
  obtain ⟨mtu, hclamped⟩ := Bounds.exists_clamp hmtu answer.mtu
  rw [handle, perform_of_grant peer hbody, handleVerifyConnect, if_neg (not_not_intro hstate),
    hagrees, Settings.clampMtu, hclamped, Settings.clampWindow, Bounds.clamp_inverted hwindow]
  rfl

end Peer

/-! ## The honest answer -/

namespace Party

/-- This side waits for the channels and the throttle of the offer: it has configured no other
throttle last, and the offer could name the number of its channels. -/
def KeepsTo (party : Party) (offer : Handshake) : Prop :=
  party.lastThrottle offer.throttle = offer.throttle ∧ party.peer.channels.length < 4294967296

/-- A side that has configured nothing but what it offers keeps to its offer. -/
theorem keepsTo_of_issued {party : Party} {offer : Handshake}
    (hissued : ∀ command ∈ party.issued, ∀ parameters,
      command.body = .throttleConfigure parameters → parameters = offer.throttle)
    (hchannels : party.peer.channels.length < 4294967296) : party.KeepsTo offer := by
  refine ⟨?_, hchannels⟩
  unfold lastThrottle
  generalize party.issued = issued at hissued
  induction issued with
  | nil => rfl
  | cons command rest ih =>
    have hfirst : offer.throttle.follow command = offer.throttle := by
      unfold ThrottleParameters.follow
      split
      · rename_i parameters hbody
        exact hissued command List.mem_cons_self parameters hbody
      · rfl
    rw [List.foldl_cons, hfirst]
    exact ih fun other hother ↦ hissued other (List.mem_cons_of_mem _ hother)

/-- A side that has asked for a connection begins to wait, with its offer as the only request. -/
theorem awaits_of_connect {slot asking : Peer} {address : Address} {channelCount : Nat}
    {challenge : UInt32} {context : Context}
    (h : slot.connect address channelCount challenge context = .ok asking) :
    asking.settings = slot.settings ∧ ∃ count window,
      Awaits (slot.askedTerms count window challenge) { peer := asking } ∧
        ∀ request, Utters { peer := asking } request → request.tag = .connect →
          request.body = .connect (slot.offer count window context) := by
  obtain ⟨count, window, -, -, hasked⟩ := Peer.connect_eq_ok h
  refine ⟨congrArg Terms.settings hasked.terms, count, window, fun _ _ ↦ hasked.terms,
    fun request hutters htag ↦ ?_⟩
  rw [(requests_of_asked hasked).eq_request hutters htag]

/-- A side that waits agrees with the answer to its offer exactly if it keeps to the offer. -/
theorem Awaits.agreesWith_iff {party : Party} {slot : Peer} {count : Nat}
    {window challenge : UInt32} {context : Context}
    (h : party.Awaits (slot.askedTerms count window challenge))
    (hwaiting : party.peer.state = .connecting)
    (huntold : ∀ command ∈ party.heard, command.configures = false) (other : Peer) (mtu : UInt16)
    (answered : UInt32) (moment : Context) :
    party.peer.agreesWith (other.answer mtu answered (slot.offer count window context) moment) =
      true ↔ party.KeepsTo (slot.offer count window context) := by
  have hterms := h hwaiting huntold
  have hchannels : party.peer.channels.length = count := congrArg Terms.channelCount hterms
  have hthrottle : party.peer.pacing.parameters = party.lastThrottle slot.settings.throttle :=
    congrArg Terms.throttle hterms
  have hcount : (UInt32.ofNat count).toNat = count ↔ count < 4294967296 := by
    rw [UInt32.toNat_ofNat']
    omega
  rw [Peer.agreesWith, Bool.and_eq_true, beq_iff_eq, beq_iff_eq, hthrottle, hchannels, KeepsTo,
    hchannels, and_comm]
  exact and_congr eq_comm hcount

end Party

/-- One side has asked for a connection by this offer and waits for the answer. Whatever it has
heard, such as acknowledgements, did not tell it how to set the connection. The other one, with
the same settings, has granted what a datagram of the first one asks for, and a datagram of its
own carries the grant. -/
inductive Answered (near far : Party) (offer : Handshake) (grant : Command) : Prop where
  /-- One side asks, and the other one grants. -/
  | intro {slot asking other granted : Peer} {address source : Address} {channelCount : Nat}
      {challenge : UInt32} {context moment : Context} {checksums farChecksums : Bool}
      {reaching farReaching : List Bytes} {datagram reply : Bytes} {header replied : Header}
      {request : Command}
      (hconnect : slot.connect address channelCount challenge context = .ok asking)
      (hnear : Relation.ReflTransGen (Party.Step .free checksums reaching)
        { peer := asking } near)
      (hwaiting : near.peer.state = .connecting)
      (huntold : ∀ command ∈ near.heard, command.configures = false)
      (hdatagram : datagram ∈ near.composed)
      (hcarries : Datagram.Carries slot.settings.checksums datagram header request)
      (hrequest : request.body = .connect offer)
      (hsettings : other.settings = slot.settings)
      (haccept : other.accept source header request offer moment = .ok granted)
      (hfar : Relation.ReflTransGen (Party.Step .free farChecksums farReaching)
        { peer := granted } far)
      (hreply : reply ∈ far.composed)
      (hanswers : Datagram.Carries slot.settings.checksums reply replied grant)
      (hgrant : grant.tag = .verifyConnect) :
      Answered near far offer grant

namespace Answered

variable {near far : Party} {offer : Handshake} {grant : Command}

/-- The side that waits agrees with the answer exactly if it keeps to its offer. -/
theorem agrees_iff (h : Answered near far offer grant) :
    near.peer.state = .connecting ∧ near.peer.settings.mtu.lower ≤ near.peer.settings.mtu.upper ∧
      ∃ answer, grant.body = .verifyConnect answer ∧
        (near.peer.agreesWith answer = true ↔ near.KeepsTo offer) := by
  obtain ⟨hconnect, hnear, hwaiting, huntold, hdatagram, hcarries, hrequest, hsettings, haccept,
    hfar, hreply, hanswers, hgrant⟩ := h
  rename_i slot asking other granted address source channelCount challenge context moment
    checksums farChecksums reaching farReaching datagram reply header replied request
  obtain ⟨hasking, count, window, hawaits, hasks⟩ := Party.awaits_of_connect hconnect
  obtain ⟨mtu, _, answered, hmtu, -, -, hgranted⟩ := Peer.accept_eq_ok haccept
  have hnearown : near.peer.settings = slot.settings :=
    (Party.settings_of_steps hnear).trans hasking
  have hfarown : far.peer.settings = slot.settings :=
    (Party.settings_of_steps hfar).trans
      ((congrArg Terms.settings hgranted.terms).trans hsettings)
  -- Both the request and the grant have been in the queues from the beginning.
  have hoffer : offer = slot.offer count window context := by
    have htag := Command.tag_of_body hrequest
    have hutters := Party.utters_handshake_of_steps hnear (.inl htag)
      (.inl ⟨datagram, hdatagram, header, hnearown ▸ hcarries⟩)
    exact Body.connect.inj (hrequest.symm.trans (hasks request hutters htag))
  have hanswer := Party.utters_granted hgranted hgrant
    (Party.utters_handshake_of_steps hfar (.inr hgrant)
      (.inl ⟨reply, hreply, replied, hfarown ▸ hanswers⟩))
  subst hoffer
  refine ⟨hwaiting, ?_, _, hanswer,
    (hawaits.steps hnear).agreesWith_iff hwaiting huntold other mtu answered moment⟩
  rw [hnearown, ← hsettings]
  exact UInt16.le_iff_toNat_le.mpr (Settings.clampMtu_eq_ok hmtu).1

/-- The honest answer completes the connection exactly if the side that waits for it keeps to
its offer, provided that the settings bound the window, and otherwise it ends the connection. -/
theorem completes_iff (h : Answered near far offer grant) (header : Header) (context : Context) :
    ((∃ after, near.peer.handle header grant context = .ok (some .connected, after) ∧
        after.state = .connected) ↔
      near.KeepsTo offer ∧ near.peer.settings.window.lower ≤ near.peer.settings.window.upper) ∧
    ((∃ after, near.peer.handle header grant context = .ok (none, after) ∧
        after.state = .zombie) ↔ ¬ near.KeepsTo offer) := by
  obtain ⟨hwaiting, hmtu, answer, hbody, hagrees⟩ := h.agrees_iff
  by_cases hkeeps : near.KeepsTo offer
  · have hsame := hagrees.mpr hkeeps
    by_cases hwindow : near.peer.settings.window.lower ≤ near.peer.settings.window.upper
    · obtain ⟨after, hhandle, hconnected⟩ :=
        Peer.handle_of_agrees hwaiting hbody hsame hmtu hwindow header context
      refine ⟨iff_of_true ⟨after, hhandle, hconnected⟩ ⟨hkeeps, hwindow⟩, iff_of_false ?_ ?_⟩
      · rintro ⟨other, hother, -⟩
        rw [hhandle] at hother
        cases hother
      · exact not_not_intro hkeeps
    · have hfails := Peer.handle_of_no_window hwaiting hbody hsame hmtu hwindow header context
      simp [hfails, hkeeps, hwindow]
  · have hdiffers := Bool.eq_false_iff.mpr (mt hagrees.mp hkeeps)
    have hends := Peer.handle_of_disagrees hwaiting hbody hdiffers header context
    simp [hends, hkeeps]

def spoken (party : Party) (place : Nat) : Option (Header × Command) :=
  match party.composed with
  | [] => none
  | datagram :: _ =>
    match Datagram.decode datagram with
    | .error _ => none
    | .ok (header, commands) => commands[place]?.map (header, ·)

theorem carries_of_spoken {party : Party} {place : Nat} {header : Header} {command : Command}
    (h : spoken party place = some (header, command)) :
    ∃ datagram ∈ party.composed, Datagram.Carries false datagram header command := by
  unfold spoken at h
  split at h
  · cases h
  · rename_i datagram rest hcomposed
    split at h
    · cases h
    · rename_i read commands hdecode
      obtain ⟨other, hmem, hsame⟩ := Option.map_eq_some_iff.mp h
      cases hsame
      exact ⟨datagram, hcomposed ▸ List.mem_cons_self, commands, ⟨datagram, .inl rfl, hdecode⟩,
        List.mem_of_getElem? hmem⟩

/-- A vacant slot asks for a connection with two channels and configures the throttle at once.
Another one grants the connection, and the first one hears that its request has arrived. -/
def answering (parameters : ThrottleParameters) : Option (Party × Party × Handshake × Command) :=
  match (Peer.vacant 3 {}).connect ⟨"10.0.0.1", 4000⟩ 2 7 ⟨1000, 0, 0⟩ with
  | .error _ => none
  | .ok asking =>
    let near := Party.compose
      (Party.issue { peer := asking } (asking.configureThrottle parameters)) 1000 false
    match spoken near 0 with
    | none => none
    | some (header, request) =>
      match request.body with
      | .connect offer =>
        match (Peer.vacant 5 {}).accept ⟨"10.0.0.2", 4000⟩ header request offer ⟨1010, 0, 0⟩ with
        | .error _ => none
        | .ok granted =>
          let far := Party.compose { peer := granted } 1010 false
          match near.move? far.composed (.hear 0 0 ⟨1020, 0, 0⟩), spoken far 1 with
          | some near, some (_, grant) => some (near, far, offer, grant)
          | _, _ => none
      | _ => none

theorem answered_of_answering {parameters : ThrottleParameters}
    (h : answering parameters = some (near, far, offer, grant))
    (hwaiting : near.peer.state = .connecting)
    (huntold : ∀ command ∈ near.heard, command.configures = false)
    (hgrant : grant.tag = .verifyConnect) : Answered near far offer grant := by
  unfold answering at h
  split at h
  · cases h
  · rename_i asking hconnect
    dsimp only at h
    split at h
    · cases h
    · rename_i header request hspoken
      split at h
      · rename_i asked hrequest
        split at h
        · cases h
        · rename_i granted haccept
          split at h
          · rename_i hearing replied reply hmove hreply
            cases h
            obtain ⟨datagram, hdatagram, hcarries⟩ := carries_of_spoken hspoken
            obtain ⟨answer, hanswer, hanswers⟩ := carries_of_spoken hreply
            have hpermits (peer : Peer) (context : Context) :
                Rules.free.Permits peer (.hear 0 0 context) := True.intro
            have hhears := Party.step_of_move? (hpermits _ _) hmove false
            have hconfigures (reaching : List Bytes) : Party.Step .free false reaching
                { peer := asking } (Party.issue _ (asking.configureThrottle parameters)) :=
              .configure True.intro
            have hnear := ((Relation.ReflTransGen.single (hconfigures _)).tail .compose).tail hhears
            have hfar : Relation.ReflTransGen (Party.Step .free false []) { peer := granted }
                (Party.compose { peer := granted } 1010 false) := .single .compose
            have hsettings : (Peer.vacant 5 {}).settings = (Peer.vacant 3 {}).settings := rfl
            exact .intro hconnect hnear hwaiting huntold (hhears.composed_subset hdatagram) hcarries
              hrequest hsettings haccept hfar hanswer hanswers hgrant
          · cases h
      · cases h

instance (party : Party) (offer : Handshake) : Decidable (party.KeepsTo offer) :=
  inferInstanceAs (Decidable (_ ∧ _))

/-- The answer reaches a slot that waits for it, and the slot keeps to its offer or not. -/
def reaches (keeps : Bool) : Party × Party × Handshake × Command → Bool
  | (near, _, offer, grant) =>
    decide (near.peer.state = .connecting) &&
      decide (∀ command ∈ near.heard, command.configures = false) &&
      decide (grant.tag = .verifyConnect) && decide (near.KeepsTo offer ↔ keeps) &&
      decide (near.peer.settings.window.lower ≤ near.peer.settings.window.upper)

theorem exists_answered (parameters : ThrottleParameters) (keeps : Bool)
    (h : (answering parameters).any (reaches keeps) = true) :
    ∃ near far offer grant, answering parameters = some (near, far, offer, grant) ∧
      Answered near far offer grant ∧ (near.KeepsTo offer ↔ keeps) ∧
        near.peer.settings.window.lower ≤ near.peer.settings.window.upper := by
  obtain ⟨⟨near, far, offer, grant⟩, hanswering, hreaches⟩ := (Option.any_eq_true _ _).mp h
  simp only [reaches, Bool.and_eq_true, decide_eq_true_eq] at hreaches
  obtain ⟨⟨⟨⟨hwaiting, huntold⟩, hgrant⟩, hkeeps⟩, hwindow⟩ := hreaches
  exact ⟨near, far, offer, grant, hanswering,
    answered_of_answering hanswering hwaiting huntold hgrant, hkeeps, hwindow⟩

/-- The slot that has configured another throttle than it has offered loses the connection by
the honest answer, and the slot that has configured the offered one is connected by it. -/
theorem completes_iff_reconfigured :
    (∃ near far offer grant after, answering ⟨5000, 4, 2⟩ = some (near, far, offer, grant) ∧
      Answered near far offer grant ∧
        near.peer.handle ⟨3, 0, 2, 1010, 7⟩ grant ⟨1020, 0, 0⟩ = .ok (none, after) ∧
          after.state = .zombie) ∧
    ∃ near far offer grant after, answering ⟨5000, 2, 2⟩ = some (near, far, offer, grant) ∧
      Answered near far offer grant ∧
        near.peer.handle ⟨3, 0, 2, 1010, 7⟩ grant ⟨1020, 0, 0⟩ = .ok (some .connected, after) ∧
          after.state = .connected := by
  constructor
  · obtain ⟨near, far, offer, grant, hanswering, hanswered, hkeeps, -⟩ :=
      exists_answered ⟨5000, 4, 2⟩ false (by decide +kernel)
    obtain ⟨after, hends⟩ := (hanswered.completes_iff ⟨3, 0, 2, 1010, 7⟩ ⟨1020, 0, 0⟩).2.mpr
      fun hkept ↦ by cases hkeeps.mp hkept
    exact ⟨near, far, offer, grant, after, hanswering, hanswered, hends⟩
  · obtain ⟨near, far, offer, grant, hanswering, hanswered, hkeeps, hwindow⟩ :=
      exists_answered ⟨5000, 2, 2⟩ true (by decide +kernel)
    obtain ⟨after, hcompletes⟩ :=
      (hanswered.completes_iff ⟨3, 0, 2, 1010, 7⟩ ⟨1020, 0, 0⟩).1.mpr ⟨hkeeps.mpr rfl, hwindow⟩
    exact ⟨near, far, offer, grant, after, hanswering, hanswered, hcompletes⟩

end Answered

end ReliableDatagram
