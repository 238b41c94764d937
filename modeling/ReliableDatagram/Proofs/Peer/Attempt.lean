import ReliableDatagram.Proofs.Peer.Continuation
import ReliableDatagram.Proofs.Peer.Flow
import ReliableDatagram.Proofs.Peer.Opening

/-!
# Waiting for a connection to be granted

A peer that has asked for a connection keeps its request in its queues, so that the request is
sent again and the attempt given up at last, until the request is granted or acknowledged. An
acknowledgement that no grant follows leaves the peer with nothing outstanding: it still waits,
but composing never gives it up.
-/

namespace ReliableDatagram

namespace Peer

variable {peer after : Peer} {request command : Command} {header : Header} {context : Context}
  {event : Option PeerEvent} {confirmed : Bool}

def Awaits (peer : Peer) (request : Command) : Prop :=
  ∃ outgoing, outgoing.command = request ∧
    (outgoing ∈ peer.sent ∨ outgoing ∈ peer.reliable ∧ outgoing.timeout ≠ 0)

/-- The arriving command acknowledges the request: it names it, and its stamp does not lie in
the future. -/
def Confirms (peer : Peer) (request command : Command) (context : Context) : Prop :=
  peer.Awaits request ∧ command.channel = request.channel ∧ ∃ sentTime,
    command.body = .acknowledge request.sequence sentTime ∧
      Stamp.before context.now sentTime = false

/-- What can become of a peer that has asked for a connection by this request, and whether the
request has been acknowledged. -/
inductive Attempt (request : Command) : Bool → Peer → Prop where
  | begin {slot peer : Peer} {address : Address} {channelCount : Nat} {challenge : UInt32}
      {context : Context}
      (hconnect : slot.connect address channelCount challenge context = .ok peer)
      (hrequest : peer.outstanding = [request]) : Attempt request false peer
  | compose {confirmed : Bool} {peer : Peer} (h : Attempt request confirmed peer) (now : Stamp)
      (check : Bool) : Attempt request confirmed (peer.compose now check).2
  /-- A command arrives that does not acknowledge the request. -/
  | handle {confirmed : Bool} {peer after : Peer} {header : Header} {command : Command}
      {context : Context} {event : Option PeerEvent} (h : Attempt request confirmed peer)
      (hother : ¬ peer.Confirms request command context)
      (hhandle : peer.handle header command context = .ok (event, after)) :
      Attempt request confirmed after
  | confirm {confirmed : Bool} {peer after : Peer} {header : Header} {command : Command}
      {context : Context} {event : Option PeerEvent} (h : Attempt request confirmed peer)
      (hconfirms : peer.Confirms request command context)
      (hhandle : peer.handle header command context = .ok (event, after)) :
      Attempt request true after

/-! ## What is outstanding -/

/-- What is outstanding when the arriving command has been taken as an acknowledgement, if it
is one. -/
def outstandingAfter (peer : Peer) (command : Command) (now : Stamp) : List Command :=
  match command.body with
  | .acknowledge sequence sentTime =>
    if Stamp.before now sentTime then peer.outstanding
    else (peer.removeSent sequence command.channel).2.outstanding
  | _ => peer.outstanding

theorem outstanding_removeSent_heard (peer : Peer) (sentTime : Stamp) (context : Context)
    (sequence : UInt32) (channel : UInt8) :
    ((peer.heard sentTime context).removeSent sequence channel).2.outstanding =
      (peer.removeSent sequence channel).2.outstanding := by
  unfold removeSent refreshTimeout heard
  dsimp only
  repeat' split
  all_goals rfl

theorem TakesAcknowledgement.outstanding {sequence : UInt32} {sentTime : Stamp} {channel : UInt8}
    (h : peer.TakesAcknowledgement channel sequence sentTime context event after)
    (hafter : after.state = .connecting) :
    after.outstanding = if Stamp.before context.now sentTime then peer.outstanding
      else (peer.removeSent sequence channel).2.outstanding := by
  cases h with
  | early hearly => rw [if_pos hearly]
  | confirmed => cases hafter
  | departed => cases hafter
  | noted hheard =>
    rw [if_neg hheard]
    exact peer.outstanding_removeSent_heard ..

/-- A peer that waits for an answer has waited before, and the arriving command is none. -/
theorem Reacts.connecting (h : Reacts peer command context event after)
    (hafter : after.state = .connecting) :
    peer.state = .connecting ∧ command.tag ≠ .verifyConnect := by
  cases h with
  | same _ hwaits hstate =>
    rw [hafter] at hstate
    exact ⟨hstate.symm, fun htag ↦ hwaits htag hstate.symm⟩
  | confirmed _ _ _ _ _ hstate =>
    rw [hafter] at hstate
    cases hstate
  | granted _ _ _ _ _ hstate =>
    rw [hafter] at hstate
    cases hstate
  | ended _ hstate =>
    rw [hafter] at hstate
    rcases hstate with hover | ⟨-, hleft⟩
    · cases hover
    · cases hleft
  | limited hbody _ hstate =>
    rw [hafter] at hstate
    refine ⟨hstate.symm, ?_⟩
    rw [Command.tag_of_body hbody]
    exact fun h ↦ by cases h
  | throttled hbody hstate =>
    rw [hafter] at hstate
    refine ⟨hstate.symm, ?_⟩
    rw [Command.tag_of_body hbody]
    exact fun h ↦ by cases h

/-- A peer goes on waiting unless the other end grants the connection or leaves it, and only an
acknowledgement changes what is outstanding. -/
theorem perform_waits {handled : Handled} (h : peer.perform command context = .ok handled)
    (hafter : handled.peer.state = .connecting) :
    command.tag ≠ .disconnect ∧
      handled.peer.outstanding = peer.outstandingAfter command context.now := by
  obtain ⟨hwaiting, hunanswered⟩ := (perform_reacts h).connecting hafter
  have hquiet {tag : Tag} (htag : command.tag = tag) (hother : tag ≠ .acknowledge)
      (hstays : tag ≠ .disconnect) : command.tag ≠ .disconnect ∧
        peer.outstanding = peer.outstandingAfter command context.now := by
    subst htag
    refine ⟨hstays, ?_⟩
    unfold outstandingAfter
    split
    · rename_i hbody
      exact absurd (Command.tag_of_body hbody) hother
    · rfl
  cases obeys_of_perform h with
  | acknowledged hbody htakes =>
    rw [Command.tag_of_body hbody, outstandingAfter, hbody]
    exact ⟨fun h ↦ (by cases h), htakes.outstanding hafter⟩
  | answered hbody =>
    rw [Command.tag_of_body hbody] at hunanswered
    exact absurd rfl hunanswered
  | left =>
    have hover := peer.handleDisconnect_isUnderWay command.requiresAcknowledgement
    rw [hafter] at hover
    cases hover
  | taken hvalue => cases (dataChannel?_eq_some hvalue).1.symm.trans hwaiting
  | nothing htag =>
    rcases htag with htag | htag | htag <;> exact hquiet htag (by decide) (by decide)
  | refused hpayload =>
    apply hquiet rfl <;>
    · intro htag
      rw [htag] at hpayload
      cases hpayload
  | limited hbody | throttled hbody =>
    exact hquiet (Command.tag_of_body hbody) (by simp [Body.tag]) (by simp [Body.tag])

theorem handle_waits (h : peer.handle header command context = .ok (event, after))
    (hafter : after.state = .connecting) :
    peer.state = .connecting ∧ command.tag ≠ .disconnect ∧
      after.outstanding = peer.outstandingAfter command context.now := by
  refine ⟨((handle_reacts h).connecting hafter).1, ?_⟩
  obtain ⟨handled, hperform, -, rfl | ⟨-, -, rfl⟩⟩ := handle_eq_ok h
  · exact perform_waits hperform hafter
  · rw [queueAcknowledgement_state] at hafter
    obtain ⟨htag, houtstanding⟩ := perform_waits hperform hafter
    refine ⟨htag, ?_⟩
    obtain ⟨_, _, heq, -⟩ := handled.peer.queueAcknowledgement_eq command header.sentTime
    rw [← houtstanding, heq]
    rfl

/-- A peer that waits for an answer after composing has waited before, and its commands are
drawn from its queues. -/
theorem compose_waits {now : Stamp} {check : Bool}
    (hafter : (peer.compose now check).2.state = .connecting) :
    peer.state = .connecting ∧ ∃ commands, Draws peer commands (peer.compose now check).2 := by
  have hbefore : peer.state = .connecting := by
    rcases peer.compose_composes now check with hover | ⟨commands, hcomposes, -⟩
    · rw [hafter] at hover
      cases hover
    · rcases hcomposes.state with hsame | hzombie
      · rw [← hsame, hafter]
      · rw [hafter] at hzombie
        cases hzombie
  refine ⟨hbefore, ?_⟩
  rcases peer.compose_draws now check (by rw [hbefore]; exact fun h ↦ by cases h) with
    ⟨-, hover, -⟩ | ⟨-, commands, hdraws, -⟩
  · rw [hafter] at hover
    cases hover
  · exact ⟨commands, hdraws⟩

/-! ## One request -/

/-- A request that is all that is outstanding is in one of the two queues. -/
theorem eq_or_eq_of_outstanding (h : peer.outstanding = [request]) :
    ∃ outgoing, outgoing.command = request ∧
      (peer.sent = [outgoing] ∧ peer.reliable = [] ∨
        peer.sent = [] ∧ peer.reliable = [outgoing]) := by
  obtain ⟨outgoing, hqueues, hcommand⟩ := List.map_eq_singleton_iff.mp h
  exact ⟨outgoing, hcommand, (List.append_eq_singleton_iff.mp hqueues).symm⟩

/-- The acknowledgement of the request takes it out. -/
theorem outstandingAfter_of_confirms (h : peer.outstanding = [request])
    (hconfirms : peer.Confirms request command context) :
    peer.outstandingAfter command context.now = [] := by
  obtain ⟨⟨other, hother, hawaits⟩, hchannel, sentTime, hbody, htime⟩ := hconfirms
  obtain ⟨outgoing, rfl, hqueues⟩ := eq_or_eq_of_outstanding h
  have hnamed : outgoing.isNamed outgoing.command.sequence outgoing.command.channel = true := by
    simp [Outgoing.isNamed]
  simp only [outstandingAfter, hbody, htime, hchannel, Bool.false_eq_true, if_false]
  rcases hqueues with ⟨hsent, hreliable⟩ | ⟨hsent, hreliable⟩
  · simp [removeSent, hsent, hreliable, hnamed, refreshTimeout, outstanding]
  · have htimeout : outgoing.timeout ≠ 0 := by
      rw [hsent, hreliable, List.mem_singleton] at hawaits
      obtain hmem | ⟨rfl, htimeout⟩ := hawaits
      · cases hmem
      · exact htimeout
    simp [removeSent, hsent, hreliable, hnamed, htimeout, outstanding]

/-- Any other command leaves the request outstanding. -/
theorem outstandingAfter_of_not_confirms (h : peer.outstanding = [request])
    (hother : ¬ peer.Confirms request command context) :
    peer.outstandingAfter command context.now = [request] := by
  obtain ⟨outgoing, rfl, hqueues⟩ := eq_or_eq_of_outstanding h
  unfold outstandingAfter
  split
  · rename_i sequence sentTime hbody
    split
    · exact h
    · rename_i hfresh
      have hunnamed (hawaits : peer.Awaits outgoing.command) :
          outgoing.isNamed sequence command.channel = false := by
        rw [Bool.eq_false_iff]
        intro hnamed
        obtain ⟨hsequence, hchannel⟩ := eq_of_isNamed hnamed
        exact hother ⟨hawaits, hchannel.symm, sentTime, hsequence ▸ hbody, by simpa using hfresh⟩
      rcases hqueues with ⟨hsent, hreliable⟩ | ⟨hsent, hreliable⟩
      · have hname := hunnamed ⟨outgoing, rfl, .inl (by rw [hsent]; exact List.mem_cons_self)⟩
        simp [removeSent, hsent, hreliable, hname, outstanding]
      · by_cases htimeout : outgoing.timeout = 0
        · simp [removeSent, hsent, hreliable, htimeout, outstanding]
        · have hname := hunnamed
            ⟨outgoing, rfl, .inr ⟨by rw [hreliable]; exact List.mem_cons_self, htimeout⟩⟩
          simp [removeSent, hsent, hreliable, hname, outstanding]
  · exact h

/-- Where nothing is outstanding, no acknowledgement takes anything out. -/
theorem outstandingAfter_of_nil (h : peer.outstanding = []) :
    peer.outstandingAfter command context.now = [] := by
  have hqueues : peer.sent = [] ∧ peer.reliable = [] := by
    simpa [outstanding] using h
  unfold outstandingAfter
  split
  · split
    · exact h
    · simp [removeSent, hqueues, outstanding]
  · exact h

/-! ## The attempt -/

/-- The connection is asked for once, by the first command on the control channel. -/
theorem Attempt.request_eq (h : Attempt request confirmed peer) :
    ∃ offer, request = ⟨controlChannel, Command.acknowledgeFlag, 1, .connect offer⟩ := by
  induction h with
  | begin hconnect hrequest =>
    obtain ⟨count, window, -, -, hasked⟩ := connect_eq_ok hconnect
    rw [hasked.outstanding, List.cons.injEq] at hrequest
    exact ⟨_, hrequest.1.symm⟩
  | compose _ _ _ ih => exact ih
  | handle _ _ _ ih => exact ih
  | confirm _ _ _ ih => exact ih

/-- The departure of the other end does not wait to be confirmed. -/
theorem Attempt.acknowledgements (h : Attempt request confirmed peer)
    (hstate : peer.state = .connecting) :
    ∀ acknowledgement ∈ peer.acknowledgements, acknowledgement.tag ≠ .disconnect := by
  have hstep {peer after : Peer} {header : Header} {command : Command} {context : Context}
      {event : Option PeerEvent} (hhandle : peer.handle header command context = .ok (event, after))
      (hafter : after.state = .connecting) (ih : peer.state = .connecting →
        ∀ acknowledgement ∈ peer.acknowledgements, acknowledgement.tag ≠ .disconnect) :
      ∀ acknowledgement ∈ after.acknowledgements, acknowledgement.tag ≠ .disconnect := by
    obtain ⟨hbefore, htag, -⟩ := handle_waits hhandle hafter
    intro acknowledgement hmem
    rcases (handle_queues hhandle).2.2 acknowledgement hmem with hold | ⟨-, -, rfl⟩
    · exact ih hbefore acknowledgement hold
    · exact htag
  induction h with
  | begin hconnect _ =>
    obtain ⟨count, window, -, -, hasked⟩ := connect_eq_ok hconnect
    rw [hasked.acknowledgements]
    simp
  | compose _ _ _ ih =>
    obtain ⟨hbefore, commands, hdraws⟩ := compose_waits hstate
    exact fun acknowledgement hmem ↦ ih hbefore acknowledgement (hdraws.acknowledgements hmem)
  | handle _ _ hhandle ih => exact hstep hhandle hstate ih
  | confirm _ _ hhandle ih => exact hstep hhandle hstate ih

/-- What is outstanding while the peer waits for an answer: the request, until it is
acknowledged. -/
theorem Attempt.outstanding (h : Attempt request confirmed peer)
    (hstate : peer.state = .connecting) :
    peer.outstanding = if confirmed then [] else [request] := by
  induction h with
  | begin _ hrequest => exact hrequest
  | @compose confirmed _ _ _ _ ih =>
    obtain ⟨hbefore, commands, hdraws⟩ := compose_waits hstate
    have hkept := ih hbefore
    have hperm := hdraws.outstanding
    rw [hkept] at hperm
    cases confirmed with
    | true => exact List.perm_nil.mp hperm
    | false => exact List.perm_singleton.mp hperm
  | @handle confirmed _ _ _ _ _ _ _ hother hhandle ih =>
    obtain ⟨hbefore, -, hafter⟩ := handle_waits hhandle hstate
    have hkept := ih hbefore
    rw [hafter]
    cases confirmed with
    | true => exact outstandingAfter_of_nil hkept
    | false => exact outstandingAfter_of_not_confirms hkept hother
  | @confirm confirmed _ _ _ _ _ _ _ hconfirms hhandle ih =>
    obtain ⟨hbefore, -, hafter⟩ := handle_waits hhandle hstate
    have hkept := ih hbefore
    rw [hafter]
    cases confirmed with
    | true => exact outstandingAfter_of_nil hkept
    | false => exact outstandingAfter_of_confirms hkept hconfirms

/-- While the peer waits for an answer, its request is in its queues unless it has been
acknowledged; from then on composing neither gives the connection up nor ends the wait. -/
theorem Attempt.pending_iff_not_confirmed (h : Attempt request confirmed peer)
    (hstate : peer.state = .connecting) :
    request.tag = .connect ∧ (request ∈ peer.outstanding ↔ confirmed = false) ∧
      (confirmed = true → ∀ now check, (peer.compose now check).1 ≠ .ok .timedOut ∧
        (peer.compose now check).2.state = .connecting) := by
  have houtstanding := h.outstanding hstate
  refine ⟨?_, ?_, ?_⟩
  · obtain ⟨offer, rfl⟩ := h.request_eq
    rfl
  · rw [houtstanding]
    cases confirmed <;> simp
  · intro hconfirmed now check
    have hsent : peer.sent = [] := by
      rw [hconfirmed, if_pos rfl] at houtstanding
      exact (List.append_eq_nil_iff.mp (List.map_eq_nil_iff.mp houtstanding)).1
    rcases peer.compose_draws now check (by rw [hstate]; exact fun h ↦ by cases h) with
      ⟨-, -, hwaiting⟩ | ⟨hgoes, commands, hdraws, -⟩
    · exact absurd hsent hwaiting
    · refine ⟨hgoes, ?_⟩
      rcases hdraws.state with hsame | ⟨-, acknowledgement, hmem, htag⟩
      · rw [hsame, hstate]
      · exact absurd htag (h.acknowledgements hstate acknowledgement hmem)

/-- A vacant slot asks for a connection and sends its request, which is then acknowledged. -/
def stall : Option (Command × Peer) :=
  let context : Context := ⟨1000, 0, 0⟩
  match (Peer.vacant 0 {}).connect ⟨"10.0.0.1", 4000⟩ 1 7 context with
  | .error _ => none
  | .ok peer =>
    match peer.outstanding, (peer.compose 1000 false).2 with
    | [request], waiting =>
      let acknowledgement : Command := ⟨controlChannel, 0, 1, .acknowledge 1 1000⟩
      if waiting.sent.map (·.command) = [request] ∧ request.channel = controlChannel ∧
          request.sequence = 1 then
        match waiting.handle ⟨0, 0, 1, 1000, 7⟩ acknowledgement context with
        | .error _ => none
        | .ok (_, after) => some (request, after)
      else none
    | _, _ => none

theorem attempt_of_stall (h : stall = some (request, after)) : Attempt request true after := by
  unfold stall at h
  dsimp only at h
  split at h
  · cases h
  · rename_i peer hconnect
    split at h
    · rename_i request waiting hrequest
      split at h
      · rename_i hsent
        obtain ⟨outgoing, hqueue, rfl⟩ := List.map_eq_singleton_iff.mp hsent.1
        split at h
        · cases h
        · rename_i hhandle
          cases h
          refine .confirm (.compose (.begin hconnect hrequest) 1000 false) ?_ hhandle
          refine ⟨⟨outgoing, rfl, .inl ?_⟩, hsent.2.1.symm, 1000, ?_, by decide⟩
          · rw [hqueue]
            exact List.mem_cons_self
          · rw [hsent.2.2]
      · cases h
    · cases h

/-- A request that is acknowledged and not granted leaves the peer waiting for ever. -/
theorem pending_iff_not_confirmed_stall :
    ∃ request peer, stall = some (request, peer) ∧ peer.state = .connecting ∧
      request ∉ peer.outstanding ∧ ∀ now check, (peer.compose now check).1 ≠ .ok .timedOut ∧
        (peer.compose now check).2.state = .connecting := by
  have hwaits : stall.any (·.2.state = .connecting) := by decide +kernel
  obtain ⟨⟨request, peer⟩, hstall, hstate⟩ := (Option.any_eq_true _ _).mp hwaits
  have hconnecting : peer.state = .connecting := of_decide_eq_true hstate
  obtain ⟨-, hpending, hstalled⟩ :=
    (attempt_of_stall hstall).pending_iff_not_confirmed hconnecting
  exact ⟨request, peer, hstall, hconnecting, fun h ↦ (by cases hpending.mp h), hstalled rfl⟩

end Peer

end ReliableDatagram
