import ReliableDatagram.Proofs.Channel.Retention
import ReliableDatagram.Proofs.Connection.Ordering

/-!
# No reliable data is lost

Every reliable command of a submitted packet is still queued at the end that sent it, or the
other end keeps it. An acknowledgement can take a command out of the queues, so the
invariant also speaks of the acknowledgements that wait or are on their way: each names a
command that the end which acknowledges it keeps, and a command is known by its channel and
its number.
-/

namespace ReliableDatagram

open Submission

/-- Taking in data drops nothing. -/
theorem Channel.Keeps.takes {value taken : Channel} {command other : Command}
    (h : value.Keeps other) (htakes : value.Takes command taken) : taken.Keeps other := by
  cases htakes with
  | reliable => exact h.queueReliable _
  | fragment => exact h.addFragment _
  | unreliable => exact h.queueUnreliable _
  | unsequenced => exact h.queueUnsequenced _
  | repeated => exact h

namespace End

variable {near far after : End} {command : Command}

/-- A reliable command of the other end is kept once its data is taken in. -/
theorem Owes.keeps {positions : List Nat} {value taken : Channel} (howes : near.Owes command)
    (hlog : Numbered (near.log command.channel)) (htakes : value.Takes command taken)
    (h : value.Follows (near.log command.channel) positions) : taken.Keeps command := by
  obtain ⟨lane, i, submission, hget, hissues⟩ := howes
  have hlane : submission.channel = lane := channel_of_mem_log (List.mem_of_getElem? hget)
  rw [hissues.channel_eq, hlane] at h hlog
  cases hissues with
  | whole hwhole hreliable =>
    cases htakes with
    | reliable hbody =>
      cases hbody
      exact h.keeps_queueReliable hlog hget hwhole hreliable
    | fragment hbody => cases hbody
    | unreliable hbody => cases hbody
    | unsequenced hbody => cases hbody
    | repeated hbody => cases hbody
  | fragment hrun hfragment =>
    cases htakes with
    | reliable hbody => cases hbody
    | fragment hbody =>
      cases hbody
      exact h.keeps_addFragment hlog hget hrun hfragment
    | unreliable hbody => cases hbody
    | unsequenced hbody => cases hbody
    | repeated hbody => cases hbody

/-- A reliable command is known by its channel and its number. -/
theorem Owes.eq {other : Command} (howes : near.Owes command) (hother : near.Owes other)
    (horderly : near.Orderly) (hchannel : command.channel = other.channel)
    (hsequence : command.sequence = other.sequence) : command = other := by
  obtain ⟨lane, i, submission, hget, hissues⟩ := howes
  obtain ⟨lane', j, submission', hget', hissues'⟩ := hother
  have hlane : submission.channel = lane := channel_of_mem_log (List.mem_of_getElem? hget)
  have hlane' : submission'.channel = lane' := channel_of_mem_log (List.mem_of_getElem? hget')
  rw [hissues.channel_eq, hissues'.channel_eq, hlane, hlane'] at hchannel
  subst hchannel
  exact ((horderly.numbered _).eq_of_issues hget hget' hissues hissues' hsequence).1

/-- A data channel has a number of its own. -/
theorem Owes.ne_controlChannel (howes : near.Owes command) (horderly : near.Orderly) :
    command.channel ≠ controlChannel := by
  obtain ⟨lane, i, submission, hget, hissues⟩ := howes
  rw [hissues.channel_eq]
  exact horderly.data _ (List.mem_filter.mp (List.mem_of_getElem? hget)).1

theorem Owes.of_mem {lane : UInt8} {submission : Submission} (horderly : near.Orderly)
    (hmem : submission ∈ near.log lane) (hcommand : command ∈ submission.commands) :
    near.Owes command ∧ command.channel = lane := by
  obtain ⟨i, hget⟩ := List.mem_iff_getElem?.mp hmem
  have hissues := (horderly.numbered lane).issues_of_mem hget hcommand
  exact ⟨⟨lane, i, submission, hget, hissues⟩, hissues.channel_eq.trans (channel_of_mem_log hmem)⟩

/-- No command that waits to be sent on a data channel is an acknowledgement. -/
theorem Queues.ne_acknowledge (hqueues : near.Queues command)
    (hchannel : command.channel ≠ controlChannel) (sequence : UInt32) (sentTime : Stamp) :
    command.body ≠ .acknowledge sequence sentTime := by
  intro hbody
  cases hqueues with
  | control hcontrols => exact hchannel hcontrols.1
  | reliable howes =>
    obtain ⟨lane, i, submission, hget, hissues⟩ := howes
    cases hissues <;> cases hbody
  | unreliable => cases hbody
  | unsequenced hother =>
    rw [hbody] at hother
    cases hother

/-! ## The invariant -/

/-- There is a reliable command with this channel and number, and the far end keeps it. -/
def Settled (near far : End) (lane : UInt8) (sequence : UInt32) : Prop :=
  ∃ command, near.Owes command ∧ command.channel = lane ∧ command.sequence = sequence ∧
    (far.channel lane).Keeps command

/-- What the near end has sent reliably is queued there or kept by the far end, and what the
far end acknowledges it keeps. -/
structure Lossless (near far : End) : Prop where
  acknowledged : ∀ acknowledgement ∈ far.peer.acknowledgements,
    acknowledgement.channel ≠ controlChannel →
      Settled near far acknowledgement.channel acknowledgement.sequence
  confirmed : ∀ datagram ∈ far.composed, ∀ header commands,
    Datagram.Reads far.peer.settings.checksums datagram header commands →
      ∀ command ∈ commands, ∀ sequence sentTime, command.body = .acknowledge sequence sentTime →
        command.channel ≠ controlChannel → Settled near far command.channel sequence
  kept : ∀ lane, ∀ submission ∈ near.log lane, ∀ command ∈ submission.commands,
    command ∈ near.peer.outstanding ∨ (far.channel lane).Keeps command

namespace Lossless

/-! ## Steps of the end that sends -/

theorem near_mono (h : Lossless near far) {more : List Submission}
    (hmore : after.submitted = near.submitted ++ more)
    (hkept : ∀ lane, ∀ submission ∈ after.log lane, ∀ command ∈ submission.commands,
      command ∈ after.peer.outstanding ∨ (far.channel lane).Keeps command) :
    Lossless after far := by
  have hsettled {lane : UInt8} {sequence : UInt32} (h : Settled near far lane sequence) :
      Settled after far lane sequence := by
    obtain ⟨command, howes, hcommand⟩ := h
    exact ⟨command, howes.mono hmore, hcommand⟩
  refine ⟨?_, ?_, hkept⟩
  · intro acknowledgement hmem hchannel
    exact hsettled (h.acknowledged acknowledgement hmem hchannel)
  · intro datagram hdatagram header commands hreads command hcommand sequence sentTime hbody
      hchannel
    exact hsettled (h.confirmed datagram hdatagram header commands hreads command hcommand
      sequence sentTime hbody hchannel)

/-- An acknowledgement takes out only what the far end keeps. -/
theorem near_handles (h : Lossless near far) (horderly : near.Orderly) {peer : Peer}
    (hsettled : ∀ sequence sentTime, command.body = .acknowledge sequence sentTime →
      command.channel ≠ controlChannel → Settled near far command.channel sequence)
    (hhandles : near.peer.Handles command peer) : Lossless { near with peer := peer } far := by
  have hmore : { near with peer := peer }.submitted = near.submitted ++ [] :=
    (List.append_nil _).symm
  refine h.near_mono hmore ?_
  intro lane submission hmem other hother
  rcases h.kept lane submission hmem other hother with hwaits | hkeeps
  · obtain ⟨howes, hlane⟩ := Owes.of_mem horderly hmem hother
    have hchannel := howes.ne_controlChannel horderly
    rcases hhandles.kept other hwaits with hstill | hcontrol | htag | ⟨hsame, sentTime, hbody⟩
    · exact .inl hstill
    · exact absurd hcontrol hchannel
    · obtain ⟨_, _, _, _, hissues⟩ := howes
      cases hissues <;> cases htag
    · right
      obtain ⟨twin, htwin, htwinlane, hsequence, hkeeps⟩ :=
        hsettled _ _ hbody (by rw [hsame]; exact hchannel)
      rw [htwin.eq howes horderly (htwinlane.trans hsame) hsequence, hsame, hlane] at hkeeps
      exact hkeeps
  · exact .inr hkeeps

theorem near_submit (h : Lossless near far) (horderly : near.Orderly) (hfits : near.Fits)
    {lane : UInt8} {packet : Packet} {peer : Peer} (hsend : near.peer.send lane packet = .ok peer) :
    Lossless (near.submit lane packet peer) far := by
  obtain ⟨value, -, hsends, hreliable, -, hcommands⟩ := horderly.sends hfits hsend
  have hmore : (near.submit lane packet peer).submitted =
      near.submitted ++ [near.submission lane packet peer] := rfl
  apply h.near_mono hmore
  intro other submission hmem command hcommand
  change command ∈ peer.outstanding ∨ _
  rw [hsends.mem_outstanding, hreliable, ← hcommands]
  rw [log_submit] at hmem
  rcases List.mem_append.mp hmem with hmem | hmem
  · exact (h.kept other submission hmem command hcommand).imp_left .inl
  · left
    right
    split at hmem
    · rw [List.mem_singleton.mp hmem] at hcommand
      exact hcommand
    · cases hmem

theorem near_compose (h : Lossless near far) {now : Stamp} {check : Bool}
    (hunderWay : (near.compose now check).peer.state.isUnderWay = true) :
    Lossless (near.compose now check) far := by
  obtain ⟨commands, hcomposes, hsubmitted, -⟩ := compose_of_isUnderWay hunderWay
  have hmore : (near.compose now check).submitted = near.submitted ++ [] := by
    rw [hsubmitted, List.append_nil]
  apply h.near_mono hmore
  intro lane submission hmem command hcommand
  rw [log, hsubmitted] at hmem
  exact (h.kept lane submission hmem command hcommand).imp_left fun hwaits ↦
    hcomposes.kept hwaits

theorem near_receive (h : Lossless near far) (lane : UInt8) :
    Lossless (near.receive lane) far := by
  obtain ⟨⟨channels, hpeer, -⟩, hsubmitted, -⟩ := near.receive_eq lane
  have hmore : (near.receive lane).submitted = near.submitted ++ [] := by
    rw [hsubmitted, List.append_nil]
  apply h.near_mono hmore
  intro other submission hmem command hcommand
  rw [log, hsubmitted] at hmem
  rw [hpeer]
  exact h.kept other submission hmem command hcommand

/-- The near end does something, and only what the far end composed can reach it. -/
theorem near_step (h : Lossless near far) (horderly : near.Orderly)
    (hstep : Step far.peer.settings.checksums far.composed near after) (hafter : after.Fits) :
    Lossless after far := by
  have hfits := (hstep.fits hafter).1
  have hunderWay := hafter.underWay
  cases hstep with
  | submit hsend => exact h.near_submit horderly hfits hsend
  | compose => exact h.near_compose hunderWay
  | @arrive datagram header commands peer hdatagram hreads hhandles =>
    have hall : { near with peer := peer }.Orderly ∧ Lossless { near with peer := peer } far := by
      refine hhandles.preserves (P := fun middle ↦ { near with peer := middle }.Orderly ∧
        Lossless { near with peer := middle } far) hunderWay ?_ ⟨horderly, h⟩
      intro command hcommand middle next hmiddle hhandled _
      refine ⟨hmiddle.1.handles hhandled, hmiddle.2.near_handles hmiddle.1 ?_ hhandled⟩
      intro sequence sentTime hbody hchannel
      exact h.confirmed datagram hdatagram header commands hreads command hcommand sequence
        sentTime hbody hchannel
    exact hall.2
  | receive => exact h.near_receive _

/-! ## Steps of the end that keeps -/

theorem far_mono (h : Lossless near far)
    (hkeeps : ∀ command, near.Owes command → (far.channel command.channel).Keeps command →
      (after.channel command.channel).Keeps command) (horderly : near.Orderly)
    (hacknowledged : ∀ acknowledgement ∈ after.peer.acknowledgements,
      acknowledgement ∈ far.peer.acknowledgements ∨ (acknowledgement.channel ≠ controlChannel →
        Settled near after acknowledgement.channel acknowledgement.sequence))
    (hconfirmed : ∀ datagram ∈ after.composed, ∀ header commands,
      Datagram.Reads after.peer.settings.checksums datagram header commands →
        (datagram ∈ far.composed ∧
          Datagram.Reads far.peer.settings.checksums datagram header commands) ∨
        ∀ command ∈ commands, ∀ sequence sentTime, command.body = .acknowledge sequence sentTime →
          command.channel ≠ controlChannel → Settled near far command.channel sequence) :
    Lossless near after := by
  have hsettled {lane : UInt8} {sequence : UInt32} (h : Settled near far lane sequence) :
      Settled near after lane sequence := by
    obtain ⟨command, howes, rfl, hsequence, hkept⟩ := h
    exact ⟨command, howes, rfl, hsequence, hkeeps command howes hkept⟩
  refine ⟨?_, ?_, ?_⟩
  · intro acknowledgement hmem hchannel
    rcases hacknowledged acknowledgement hmem with hold | hnew
    · exact hsettled (h.acknowledged acknowledgement hold hchannel)
    · exact hnew hchannel
  · intro datagram hdatagram header commands hreads command hcommand sequence sentTime hbody
      hchannel
    rcases hconfirmed datagram hdatagram header commands hreads with ⟨hold, hsame⟩ | hnew
    · exact hsettled (h.confirmed datagram hold header commands hsame command hcommand sequence
        sentTime hbody hchannel)
    · exact hsettled (hnew command hcommand sequence sentTime hbody hchannel)
  · intro lane submission hmem command hcommand
    obtain ⟨howes, hlane⟩ := Owes.of_mem horderly hmem hcommand
    subst hlane
    exact (h.kept _ submission hmem command hcommand).imp_right (hkeeps command howes)

/-- What is acknowledged for the first time has just been taken in. -/
theorem far_handles (h : Lossless near far) (horderly : near.Orderly) (hordered : Ordered near far)
    (hemits : near.Emits command) {peer : Peer} (hhandles : far.peer.Handles command peer)
    (hacknowledges : far.peer.Acknowledges command peer) :
    Lossless near { far with peer := peer } := by
  refine h.far_mono ?_ horderly ?_ ?_
  · intro other howes hkeeps
    rcases hhandles.channels with hsame | ⟨value, taken, hvalue, htakes, hset⟩
    · rw [channel_congr (e := far) hsame]
      exact hkeeps
    · rw [channel_set hvalue hset]
      split
      · rename_i heq
        rw [heq, channel_of_eq_some hvalue] at hkeeps
        exact hkeeps.takes htakes
      · exact hkeeps
  · intro acknowledgement hmem
    rcases hacknowledges acknowledgement hmem with hold | ⟨hchannel, hsequence, hasks, htaken⟩
    · exact .inl hold
    right
    intro hdata
    rw [hchannel] at hdata ⊢
    rw [hsequence]
    have howes : near.Owes command := by
      rcases hemits with ⟨acknowledgement, rfl⟩ | hqueues
      · rw [Peer.requiresAcknowledgement_of_plain rfl] at hasks
        cases hasks
      cases hqueues with
      | control hcontrols => exact absurd hcontrols.1 hdata
      | reliable howes => exact howes
      | unreliable =>
        rw [Peer.requiresAcknowledgement_of_plain rfl] at hasks
        cases hasks
      | unsequenced _ hsilent =>
        rw [hsilent] at hasks
        cases hasks
    refine ⟨command, howes, rfl, rfl, ?_⟩
    have hpayload : command.tag.carriesPayload = true := by
      obtain ⟨_, _, _, _, hissues⟩ := howes
      cases hissues <;> rfl
    obtain ⟨value, taken, hvalue, htakes, hset⟩ := htaken hpayload
    rw [channel_set hvalue hset, if_pos rfl]
    obtain ⟨positions, hfollows, -⟩ := hordered command.channel
    rw [channel_of_eq_some hvalue] at hfollows
    exact howes.keeps (horderly.numbered _) htakes hfollows
  · intro datagram hdatagram header commands hreads
    rw [hhandles.settings] at hreads
    exact .inl ⟨hdatagram, hreads⟩

theorem far_submit (h : Lossless near far) (hnear : near.Orderly) (hfar : far.Orderly)
    (hfits : far.Fits) {lane : UInt8} {packet : Packet} {peer : Peer}
    (hsend : far.peer.send lane packet = .ok peer) :
    Lossless near (far.submit lane packet peer) := by
  obtain ⟨value, hvalue, hsends, -⟩ := hfar.sends hfits hsend
  refine h.far_mono ?_ hnear ?_ ?_
  · intro command _ hkeeps
    rw [channel_set hvalue hsends.channels]
    split
    · rename_i heq
      rw [heq, channel_of_eq_some hvalue] at hkeeps
      exact hkeeps.imp_right fun hstores ↦ hstores.of_subset (List.Subset.refl _)
    · exact hkeeps
  · intro acknowledgement hmem
    change acknowledgement ∈ peer.acknowledgements at hmem
    rw [hsends.acknowledgements] at hmem
    exact .inl hmem
  · intro datagram hdatagram header commands hreads
    change Datagram.Reads peer.settings.checksums datagram header commands at hreads
    rw [hsends.settings] at hreads
    exact .inl ⟨hdatagram, hreads⟩

/-- A datagram carries only acknowledgements that waited to be sent. -/
theorem settled_of_composes (h : Lossless near far) (hfar : far.Orderly) {commands : List Command}
    {peer : Peer} (hcomposes : far.peer.Composes commands peer) (hcommand : command ∈ commands)
    {sequence : UInt32} {sentTime : Stamp} (hbody : command.body = .acknowledge sequence sentTime)
    (hchannel : command.channel ≠ controlChannel) :
    Settled near far command.channel sequence := by
  rcases hcomposes.drawn command hcommand with ⟨acknowledgement, hmem, rfl⟩ |
    ⟨outgoing, hmem, rfl⟩ | hmem | ⟨hcontrol, -⟩
  · cases hbody
    exact h.acknowledged acknowledgement hmem hchannel
  · exact absurd hbody ((hfar.unreliable outgoing hmem).ne_acknowledge hchannel _ _)
  · rcases hfar.outstanding command hmem with hcontrols | howes
    · exact absurd hcontrols.1 hchannel
    · exact absurd hbody ((Queues.reliable howes).ne_acknowledge hchannel _ _)
  · exact absurd hcontrol hchannel

theorem far_compose (h : Lossless near far) (hnear : near.Orderly) (hfar : far.Orderly)
    {now : Stamp} {check : Bool}
    (hunderWay : (far.compose now check).peer.state.isUnderWay = true) :
    Lossless near (far.compose now check) := by
  obtain ⟨commands, hcomposes, -, -, hreads⟩ := compose_of_isUnderWay hunderWay
  refine h.far_mono ?_ hnear ?_ ?_
  · intro command _ hkeeps
    rw [channel_congr hcomposes.channels]
    exact hkeeps
  · intro acknowledgement hmem
    exact .inl (hcomposes.acknowledgements hmem)
  · intro datagram hdatagram header others hothers
    rcases hreads datagram hdatagram header others hothers with hold | rfl
    · exact .inl hold
    right
    intro command hcommand sequence sentTime hbody hchannel
    exact h.settled_of_composes hfar hcomposes hcommand hbody hchannel

theorem far_receive (h : Lossless near far) (hnear : near.Orderly) (hordered : Ordered near far)
    (lane : UInt8) : Lossless near (far.receive lane) := by
  obtain ⟨⟨channels, hpeer, -⟩, -, hcomposed, hchannel, -⟩ := far.receive_eq lane
  refine h.far_mono ?_ hnear ?_ ?_
  · intro command howes hkeeps
    rw [hchannel]
    split
    · rename_i heq
      obtain ⟨other, i, submission, hget, hissues⟩ := howes
      have hother : submission.channel = other := channel_of_mem_log (List.mem_of_getElem? hget)
      rw [hissues.channel_eq, hother] at heq hkeeps
      subst heq
      obtain ⟨positions, hfollows, -⟩ := hordered other
      exact hkeeps.receive hfollows (hnear.numbered other) hget hissues
    · exact hkeeps
  · intro acknowledgement hmem
    rw [hpeer] at hmem
    exact .inl hmem
  · intro datagram hdatagram header commands hreads
    rw [hpeer] at hreads
    rw [hcomposed] at hdatagram
    exact .inl ⟨hdatagram, hreads⟩

/-- The far end does something, and only what the near end composed can reach it. -/
theorem far_step (h : Lossless near far) (hnear : near.Orderly) (hfar : far.Orderly)
    (hordered : Ordered near far)
    (hstep : Step near.peer.settings.checksums near.composed far after) (hafter : after.Fits) :
    Lossless near after := by
  have hfits := (hstep.fits hafter).1
  have hunderWay := hafter.underWay
  cases hstep with
  | submit hsend => exact h.far_submit hnear hfar hfits hsend
  | compose => exact h.far_compose hnear hfar hunderWay
  | @arrive datagram header commands peer hdatagram hreads hhandles =>
    have hall : Ordered near { far with peer := peer } ∧
        Lossless near { far with peer := peer } := by
      refine hhandles.preserves (P := fun middle ↦ Ordered near { far with peer := middle } ∧
        Lossless near { far with peer := middle }) hunderWay ?_ ⟨hordered, h⟩
      intro command hcommand middle next hmiddle hhandled hacknowledges
      have hemits := hnear.composed datagram hdatagram header commands hreads command hcommand
      exact ⟨hmiddle.1.handles hnear hemits hhandled,
        hmiddle.2.far_handles hnear hmiddle.1 hemits hhandled hacknowledges⟩
    exact hall.2
  | receive => exact h.far_receive hnear hordered _

end Lossless

theorem Quiet.lossless (hnear : near.Quiet) (hfar : far.Quiet)
    (hacknowledges : ∀ acknowledgement ∈ far.peer.acknowledgements,
      acknowledgement.channel = controlChannel) : Lossless near far where
  acknowledged acknowledgement hmem hchannel :=
    absurd (hacknowledges acknowledgement hmem) hchannel
  confirmed datagram hdatagram header commands hreads command hcommand _ _ _ hchannel :=
    absurd (hfar.composed datagram hdatagram header commands hreads command hcommand).1 hchannel
  kept lane submission hmem := by
    rw [hnear.log_eq] at hmem
    cases hmem

/-! ## Delivering what waits -/

/-- Takes as many packets from a channel, or as many as there are. -/
def drain (e : End) (lane : UInt8) : Nat → End
  | 0 => e
  | rounds + 1 => (e.receive lane).drain lane rounds

theorem Fits.receive (h : far.Fits) (lane : UInt8) : (far.receive lane).Fits := by
  obtain ⟨⟨channels, hpeer, hlength⟩, hsubmitted, -⟩ := far.receive_eq lane
  have hlog (other : UInt8) : (far.receive lane).log other = far.log other := by
    rw [log, hsubmitted, log]
  refine ⟨?_, ?_, fun other ↦ ?_, fun other ↦ ?_⟩
  · rw [hpeer]
    exact h.underWay
  · rw [hpeer]
    exact Nat.le_trans (Nat.le_of_eq hlength) h.channels
  · rw [hlog]
    exact h.reliable other
  · rw [hlog]
    exact h.unreliable other

theorem Fits.drain (h : far.Fits) (lane : UInt8) (rounds : Nat) :
    (far.drain lane rounds).Fits := by
  induction rounds generalizing far with
  | zero => exact h
  | succ rounds ih => exact ih (h.receive lane)

/-- After as many rounds as there are arrivals nothing can be delivered. -/
theorem receive_drain_eq_none (lane : UInt8) (rounds : Nat) (e : End)
    (h : (e.channel lane).pending ≤ rounds ∨ (e.channel lane).receive.1 = none) :
    ((e.drain lane rounds).channel lane).receive.1 = none := by
  induction rounds generalizing e with
  | zero =>
    rcases h with hempty | hnone
    · cases hreceive : (e.channel lane).receive with
      | mk packet after =>
        cases packet with
        | none => exact congrArg Prod.fst hreceive
        | some packet =>
          have hshorter := Channel.pending_receive_lt hreceive
          omega
    · exact hnone
  | succ rounds ih =>
    apply ih
    obtain ⟨-, -, -, hchannel, -⟩ := e.receive_eq lane
    rw [hchannel, if_pos rfl]
    cases hreceive : (e.channel lane).receive with
    | mk packet after =>
      cases packet with
      | none => exact .inr (Channel.receive_eq_none_again hreceive)
      | some packet =>
        left
        rw [hreceive] at h
        have hshorter := Channel.pending_receive_lt hreceive
        have hle := h.resolve_right (Option.some_ne_none _)
        exact Nat.le_of_lt_succ (Nat.lt_of_lt_of_le hshorter hle)

end End

namespace Connection

variable {connection : Connection}

theorem Reachable.lossless (h : Reachable connection) (hfits : connection.Fits) :
    End.Lossless connection.near connection.far := by
  induction h with
  | asked hopens =>
    obtain ⟨hasks, hquiet, hacknowledges⟩ := hopens.quiet hfits.1
    exact hasks.toQuiet.lossless hquiet hacknowledges
  | granted hopens =>
    obtain ⟨hasks, hquiet, -⟩ := hopens.quiet hfits.2
    apply hquiet.lossless hasks.toQuiet
    intro acknowledgement hmem
    change acknowledgement ∈ _ at hmem
    rw [hasks.acknowledgements] at hmem
    cases hmem
  | step hbefore hstep ih =>
    have hpast := hstep.fits hfits
    obtain ⟨hnear, hfar⟩ := hbefore.orderly hpast
    cases hstep with
    | near hstep => exact (ih hpast).near_step hnear hstep hfits.1
    | far hstep =>
      exact (ih hpast).far_step hnear hfar (hbefore.ordered hpast) hstep hfits.2

theorem Reachable.drain {near far : End} (h : Reachable ⟨near, far⟩) (lane : UInt8)
    (rounds : Nat) : Reachable ⟨near, far.drain lane rounds⟩ := by
  induction rounds generalizing far with
  | zero => exact h
  | succ rounds ih => exact ih (h.step (.far .receive))

/-- The reliable packets that the far end delivered on a channel are the first ones that the
near end submitted there. Every command of the others waits in a queue of the near end or has
its data in the channel of the far end; and once nothing waits at the near end, the far end
delivers all of them. -/
structure LosesNothing (connection : Connection) (lane : UInt8) : Prop where
  waits : ∃ returned missing : List Submission,
    (connection.near.log lane).filter (·.isReliable) = returned ++ missing ∧
    (connection.far.delivered lane).filter (·.flags = .reliable) = returned.map (·.delivered) ∧
    ∀ submission ∈ missing, ∀ command ∈ submission.commands,
      command ∈ connection.near.peer.outstanding ∨ (connection.far.channel lane).Stores command
  arrives : connection.near.peer.sent = [] → connection.near.peer.reliable = [] →
    ∀ rounds, (connection.far.channel lane).pending ≤ rounds →
      ((connection.far.drain lane rounds).delivered lane).filter (·.flags = .reliable) =
        ((connection.near.log lane).filter (·.isReliable)).map (·.delivered)

theorem Reachable.waits (h : Reachable connection) (hfits : connection.Fits) (lane : UInt8) :
    ∃ returned missing : List Submission,
      (connection.near.log lane).filter (·.isReliable) = returned ++ missing ∧
      (connection.far.delivered lane).filter (·.flags = .reliable) =
        returned.map (·.delivered) ∧
      ∀ submission ∈ missing, ∀ command ∈ submission.commands,
        command ∈ connection.near.peer.outstanding ∨
          (connection.far.channel lane).Stores command := by
  obtain ⟨positions, hfollows, hstands⟩ := h.ordered hfits lane
  have hlog := (h.orderly hfits).1.numbered lane
  obtain ⟨returned, missing, hsplit, hreturned, hmissing⟩ := hfollows.progress.exists_missing hlog
  refine ⟨returned, missing, hsplit, (End.filter_reliable_delivered hstands).trans hreturned, ?_⟩
  intro submission hmem command hcommand
  obtain ⟨i, hget, -, hi⟩ := hmissing submission hmem
  refine ((h.lossless hfits).kept lane submission (List.mem_of_getElem? hget) command
    hcommand).imp_right fun hkeeps ↦ ?_
  exact hkeeps.stores hfollows hlog hget (hlog.issues_of_mem hget hcommand) hi

/-- If nothing waits at the near end and nothing can be delivered on a channel of the far
end, all reliable packets of that channel were delivered. -/
theorem Reachable.delivered_all (h : Reachable connection) (hfits : connection.Fits)
    {lane : UInt8} (hempty : connection.near.peer.outstanding = [])
    (hnone : (connection.far.channel lane).receive.1 = none) :
    (connection.far.delivered lane).filter (·.flags = .reliable) =
      ((connection.near.log lane).filter (·.isReliable)).map (·.delivered) := by
  obtain ⟨positions, hfollows, hstands⟩ := h.ordered hfits lane
  have hlog := (h.orderly hfits).1.numbered lane
  have hkeeps : ∀ submission ∈ connection.near.log lane, ∀ command ∈ submission.commands,
      (connection.far.channel lane).Keeps command := by
    intro submission hmem command hcommand
    refine ((h.lossless hfits).kept lane submission hmem command hcommand).resolve_left ?_
    rw [hempty]
    exact List.not_mem_nil
  obtain ⟨returned, missing, hsplit, hreturned, hmissing⟩ := hfollows.progress.exists_missing hlog
  have hnil : missing = [] := by
    rw [List.eq_nil_iff_forall_not_mem]
    intro submission hmem
    obtain ⟨i, hget, hkind, hi⟩ := hmissing submission hmem
    exact hi (hfollows.mem_of_receive_eq_none hlog hkeeps hnone hget hkind)
  calc (connection.far.delivered lane).filter (·.flags = .reliable)
      = positions.filterMap (reliableAt (connection.near.log lane)) :=
        End.filter_reliable_delivered hstands
    _ = returned.map (·.delivered) := hreturned
    _ = ((connection.near.log lane).filter (·.isReliable)).map (·.delivered) := by
        rw [hsplit, hnil, List.append_nil]

/-- However packets are submitted, and however datagrams are composed, lost, repeated and
reordered on their way, no reliable packet is lost as long as the connection is under way. -/
theorem Reachable.losesNothing (h : Reachable connection) (hfits : connection.Fits)
    (lane : UInt8) : connection.LosesNothing lane where
  waits := h.waits hfits lane
  arrives hsent hreliable rounds hrounds := by
    have hempty : connection.near.peer.outstanding = [] := by
      rw [Peer.outstanding, hsent, hreliable]
      rfl
    have hdrained : Fits ⟨connection.near, connection.far.drain lane rounds⟩ :=
      ⟨hfits.1, hfits.2.drain lane rounds⟩
    exact (h.drain lane rounds).delivered_all hdrained hempty
      (End.receive_drain_eq_none lane rounds connection.far (.inl hrounds))

/-- In the small exchange the acknowledgement empties the queues before anything is delivered,
and then the reliable packet comes out of the channel. -/
theorem losesNothing_exchange :
    ∃ connection, exchange [(.far, .compose 1000 false), (.near, .arrive 1 ⟨1000, 0, 0⟩)] =
        some connection ∧ connection.Fits ∧
      connection.near.peer.sent = [] ∧ connection.near.peer.reliable = [] ∧
      connection.far.delivered 0 = [] ∧
      (connection.far.drain 0 2).delivered 0 = [⟨[1, 2, 3], .reliable⟩, ⟨[4], .plain⟩] ∧
      connection.LosesNothing 0 := by
  refine ⟨_, Option.eq_some_of_isSome (by decide +kernel), ?fits, by decide +kernel,
    by decide +kernel, by decide +kernel, by decide +kernel,
    Reachable.losesNothing (reachable_of_exchange (Option.eq_some_of_isSome _)) ?fits 0⟩
  constructor
  all_goals apply End.fits_of_submitted
  all_goals decide +kernel

end Connection

end ReliableDatagram
