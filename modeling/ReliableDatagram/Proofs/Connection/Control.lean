import ReliableDatagram.Proofs.Connection.Conversation
import Mathlib.Data.List.Nodup

/-!
# Settings in force

The sides of a conversation set each other's bandwidths and throttle by commands on the control
channel. Such a command takes effect whenever it is heard, whatever its number, so that the
setting in force is the one that was heard last. It is the newest one as long as no older
command is heard after a newer one; a network that overtakes or repeats undoes that.
-/

namespace ReliableDatagram

/-- What a side can set for the other one. -/
inductive Topic where
  /-- The bandwidths of the side that sets them. -/
  | bandwidth
  | throttle
deriving DecidableEq, Repr

inductive Setting where
  /-- The bandwidths at which the setting side receives and sends. -/
  | bandwidth (incoming outgoing : UInt32)
  | throttle (parameters : ThrottleParameters)
deriving DecidableEq, Repr

def Command.asks (command : Command) : Topic → Option Setting
  | .bandwidth =>
    match command.body with
    | .bandwidthLimit incoming outgoing => some (.bandwidth incoming outgoing)
    | _ => none
  | .throttle =>
    match command.body with
    | .throttleConfigure parameters => some (.throttle parameters)
    | _ => none

def Terms.setting (terms : Terms) : Topic → Setting
  | .bandwidth => .bandwidth terms.incomingBandwidth terms.outgoingBandwidth
  | .throttle => .throttle terms.throttle

namespace Command

variable {command : Command}

theorem asks_eq_none (h : command.configures = false) (topic : Topic) :
    command.asks topic = none := by
  unfold configures Command.tag at h
  unfold asks
  cases hbody : command.body <;> rw [hbody] at h <;> cases topic <;> first | rfl | cases h

theorem asks_toCommand (acknowledgement : Acknowledgement) (topic : Topic) :
    acknowledgement.toCommand.asks topic = none := asks_eq_none rfl topic

end Command

namespace Peer

variable {peer after : Peer} {command : Command} {context : Context} {event : Option PeerEvent}

/-- A connected peer works with what it is asked for, and otherwise goes on as before. -/
theorem Reacts.setting (h : Reacts peer command context event after)
    (hbefore : peer.state.isHandshaking = false) :
    after.state.isHandshaking = false ∧ (after.state = .connected → peer.state = .connected ∧
      ∀ topic, after.terms.setting topic =
        (command.asks topic).getD (peer.terms.setting topic)) := by
  cases h with
  | same hplain _ hstate hterms =>
    rw [hstate, hterms]
    refine ⟨hbefore, fun hconnected ↦ ⟨hconnected, fun topic ↦ ?_⟩⟩
    rw [Command.asks_eq_none hplain, Option.getD_none]
  | confirmed hwaiting =>
    rw [hwaiting] at hbefore
    cases hbefore
  | granted hwaiting =>
    rw [hwaiting] at hbefore
    cases hbefore
  | ended _ hstate =>
    rcases hstate with hover | ⟨-, hleft⟩
    · generalize after.state = state at hover ⊢
      cases state <;> simp_all [PeerState.isActive, PeerState.isHandshaking]
    · rw [hleft]
      exact ⟨rfl, fun h ↦ by cases h⟩
  | limited hbody _ hstate hterms =>
    rw [hstate, hterms]
    refine ⟨hbefore, fun hconnected ↦ ⟨hconnected, fun topic ↦ ?_⟩⟩
    cases topic <;> rw [Command.asks, hbody] <;> rfl
  | throttled hbody hstate hterms =>
    rw [hstate, hterms]
    refine ⟨hbefore, fun hconnected ↦ ⟨hconnected, fun topic ↦ ?_⟩⟩
    cases topic <;> rw [Command.asks, hbody] <;> rfl

end Peer

namespace Party

def inForce (party : Party) (topic : Topic) : Setting := party.peer.terms.setting topic

/-- The commands on the topic that were heard, in order. -/
def asked (party : Party) (topic : Topic) : List Command :=
  party.heard.filter fun command ↦ (command.asks topic).isSome

/-- While it is connected, this side works with what it was asked for last, and with what it
began with if it was asked for nothing. -/
structure Heeds (topic : Topic) (initial : Setting) (party : Party) : Prop where
  settled : party.peer.state.isHandshaking = false
  unasked : party.peer.state = .connected → party.asked topic = [] →
    party.inForce topic = initial
  last : party.peer.state = .connected → ∀ command, (party.asked topic).getLast? = some command →
    command.asks topic = some (party.inForce topic)

end Party

namespace Rules

/-- Anything is allowed, but a throttle that the other side sets is not set by this one. -/
def follows (topic : Topic) : Rules := { free with configures := topic ≠ .throttle }

end Rules

namespace Party

variable {topic : Topic} {initial : Setting} {checksums : Bool} {reaching : List Bytes}
  {party after : Party}

/-- Whatever leaves alone what is in force is heeded. -/
theorem Heeds.of_same (h : Heeds topic initial party) (hheard : after.heard = party.heard)
    (hsettled : after.peer.state.isHandshaking = false)
    (hforce : after.peer.state = .connected → party.peer.state = .connected ∧
      after.inForce topic = party.inForce topic) : Heeds topic initial after where
  settled := hsettled
  unasked hconnected := by
    obtain ⟨hbefore, hsame⟩ := hforce hconnected
    rw [asked, hheard, hsame]
    exact h.unasked hbefore
  last hconnected := by
    obtain ⟨hbefore, hsame⟩ := hforce hconnected
    rw [asked, hheard, hsame]
    exact h.last hbefore

/-- A command that is heard takes effect at once. -/
theorem Heeds.hear (h : Heeds topic initial party) {header : Header} {command : Command}
    {context : Context} {event : Option PeerEvent} {peer : Peer}
    (hhandle : party.peer.handle header command context = .ok (event, peer)) :
    Heeds topic initial (party.hear command event peer) := by
  obtain ⟨hsettled, hforce⟩ := (Peer.handle_reacts hhandle).setting h.settled
  have hasked : (party.hear command event peer).asked topic =
      party.asked topic ++ if (command.asks topic).isSome then [command] else [] := by
    rw [asked, Party.hear, List.filter_append, ← asked]
    congr 1
    cases hasks : command.asks topic <;> simp [hasks]
  cases hasks : command.asks topic with
  | none =>
    rw [hasks] at hasked
    refine {
      settled := hsettled
      unasked := fun hconnected ↦ ?_
      last := fun hconnected ↦ ?_ }
    all_goals
      obtain ⟨hbefore, hsame⟩ := hforce hconnected
      have hforce : (party.hear command event peer).inForce topic = party.inForce topic := by
        rw [inForce, Party.hear, hsame topic, hasks, Option.getD_none, inForce]
      rw [hasked, hforce]
      simp only [Option.isSome_none, Bool.false_eq_true, if_false, List.append_nil]
    · exact h.unasked hbefore
    · exact h.last hbefore
  | some setting =>
    rw [hasks] at hasked
    refine {
      settled := hsettled
      unasked := fun _ hnone ↦ ?_
      last := fun hconnected last hlast ↦ ?_ }
    · rw [hasked] at hnone
      simp at hnone
    · rw [hasked] at hlast
      have hcommand : command = last := by simpa using hlast
      rw [← hcommand, hasks, inForce, Party.hear, (hforce hconnected).2 topic, hasks,
        Option.getD_some]

theorem Heeds.step (h : Heeds topic initial party)
    (hstep : Step (.follows topic) checksums reaching party after) : Heeds topic initial after := by
  cases hstep.effect with
  | kept hheard _ _ hstate hterms =>
    refine h.of_same hheard ?_ fun hconnected ↦ ?_
    · rcases hstate with hsame | hover | ⟨-, hleft⟩
      · exact hsame ▸ h.settled
      · exact PeerState.isHandshaking_of_not_active hover
      · exact hleft
    · have hactive : after.peer.state.isActive = true := by
        rw [hconnected]
        rfl
      refine ⟨?_, by rw [inForce, hterms hactive, inForce]⟩
      rcases hstate with hsame | hover | ⟨hbefore, -⟩
      · exact hsame.symm.trans hconnected
      · rw [hactive] at hover
        cases hover
      · exact hbefore
  | @configured parameters hallowed hafter =>
    subst hafter
    have hstate := Peer.queueControl_state
      { party.peer with pacing := party.peer.pacing.configure parameters }
      (.throttleConfigure parameters)
    refine h.of_same rfl (hstate ▸ h.settled) fun hconnected ↦ ⟨hstate ▸ hconnected, ?_⟩
    cases topic with
    | bandwidth => exact congrArg (·.setting .bandwidth) (Peer.terms_queueControl ..)
    | throttle => exact absurd rfl hallowed
  | heard _ _ _ hhandle hafter =>
    subst hafter
    exact h.hear hhandle

/-- Whatever this side says on the topic, it has issued. -/
def Issues (topic : Topic) (party : Party) : Prop :=
  ∀ command, party.Utters command → (command.asks topic).isSome → command ∈ party.issued

theorem Issues.step {rules : Rules} (h : Issues topic party)
    (hstep : Step rules checksums reaching party after) : Issues topic after := by
  intro command hutters hasks
  rcases hstep.utters hutters with hold | hnew
  · exact hstep.issued_subset (h command hold hasks)
  have hplain (hconfigures : command.configures = false) : command ∈ after.issued := by
    rw [Command.asks_eq_none hconfigures] at hasks
    cases hasks
  cases hnew with
  | routine _ hroutine => exact hplain (Command.tag_of_isRoutine hroutine).1
  | farewell hfarewell =>
    exact hplain (Command.tag_of_isRoutine (Command.isRoutine_of_isFarewell hfarewell)).1
  | announced hissued => exact hissued
  | configured hissued => exact hissued
  | acknowledged _ _ _ _ _ hcommand =>
    rw [hcommand, Command.asks_toCommand] at hasks
    cases hasks

end Party

namespace Conversation

/-- Two connected peers, of which this one has asked for nothing on the topic yet. -/
structure Begins (topic : Topic) (conversation : Conversation) : Prop where
  near : conversation.near.peer.state = .connected
  far : conversation.far.peer.state = .connected
  composed : conversation.near.composed = []
  outstanding : ∀ command ∈ conversation.near.peer.outstanding, command.asks topic = none
  unreliable : ∀ outgoing ∈ conversation.near.peer.unreliable, outgoing.command.asks topic = none
  heard : conversation.far.heard = []

instance (topic : Topic) (conversation : Conversation) : Decidable (Begins topic conversation) :=
  decidable_of_iff
    (conversation.near.peer.state = .connected ∧ conversation.far.peer.state = .connected ∧
      conversation.near.composed = [] ∧
      (∀ command ∈ conversation.near.peer.outstanding, command.asks topic = none) ∧
      (∀ outgoing ∈ conversation.near.peer.unreliable, outgoing.command.asks topic = none) ∧
      conversation.far.heard = [])
    ⟨fun ⟨hnear, hfar, hcomposed, houtstanding, hunreliable, hheard⟩ ↦
      ⟨hnear, hfar, hcomposed, houtstanding, hunreliable, hheard⟩,
      fun h ↦ ⟨h.near, h.far, h.composed, h.outstanding, h.unreliable, h.heard⟩⟩

variable {topic : Topic} {start conversation after : Conversation}

/-- A run in which both sides do as they like, but for a throttle that this side sets. -/
abbrev Instructs (topic : Topic) : Conversation → Conversation → Prop :=
  Run (fun _ ↦ .free) fun _ ↦ .follows topic

/-- What holds throughout: this side has issued what it says, and the other side has heard what
this one says and heeds it. -/
structure Obeyed (topic : Topic) (initial : Setting) (conversation : Conversation) : Prop where
  issues : conversation.near.Issues topic
  heeds : conversation.far.Heeds topic initial
  asked : conversation.far.asked topic ⊆ conversation.near.issued

theorem Begins.obeyed (h : start.Begins topic) :
    start.Obeyed topic (start.far.inForce topic) where
  issues := by
    rintro command (⟨datagram, hdatagram, -⟩ | hholds) hasks
    · rw [h.composed] at hdatagram
      cases hdatagram
    · have hnone : command.asks topic = none := by
        rcases hholds with ⟨acknowledgement, -, rfl⟩ | ⟨outgoing, hmem, rfl⟩ | hmem
        · exact Command.asks_toCommand acknowledgement topic
        · exact h.unreliable outgoing hmem
        · exact h.outstanding command hmem
      rw [hnone] at hasks
      cases hasks
  heeds := by
    refine {
      settled := by rw [h.far]; rfl
      unasked := fun _ _ ↦ rfl
      last := fun _ command hlast ↦ ?_ }
    rw [Party.asked, h.heard] at hlast
    cases hlast
  asked := by
    rw [Party.asked, h.heard]
    exact List.nil_subset _

theorem Obeyed.step {initial : Setting} (h : conversation.Obeyed topic initial)
    (hstep : Step (fun _ ↦ .free) (fun _ ↦ .follows topic) conversation after) :
    after.Obeyed topic initial := by
  cases hstep with
  | near hstep =>
    exact {
      issues := h.issues.step hstep
      heeds := h.heeds
      asked := List.Subset.trans h.asked hstep.issued_subset }
  | @far near far after hstep =>
    refine {
      issues := h.issues
      heeds := h.heeds.step hstep
      asked := ?_ }
    cases hstep with
    | @hear datagram header command context event peer hmoment hdatagram hcarries hhandle =>
      intro other hother
      rw [Party.asked, Party.hear, List.filter_append] at hother
      rcases List.mem_append.mp hother with hold | hnew
      · exact h.asked hold
      · rw [List.mem_filter, List.mem_singleton] at hnew
        obtain ⟨rfl, hasks⟩ := hnew
        exact h.issues other (.inl ⟨datagram, hdatagram, header, hcarries⟩) hasks
    | @compose now check =>
      rw [Party.asked, (far.compose_frame now check).2.2.1]
      exact h.asked
    | operate _ => exact h.asked
    | announce _ => exact h.asked
    | configure _ => exact h.asked

theorem Instructs.obeyed (hrun : Instructs topic start conversation)
    (hbegins : start.Begins topic) : conversation.Obeyed topic (start.far.inForce topic) := by
  induction hrun with
  | refl => exact hbegins.obeyed
  | tail _ hstep ih => exact ih.step hstep

/-! ## Two settings -/

def demand (topic : Topic) (value : UInt32) : Party.Move :=
  match topic with
  | .bandwidth => .announce value value
  | .throttle => .configure ⟨value, value, value⟩

/-- Of two connected peers, one asks for two settings in two datagrams, and the other one hears
these in the given order. -/
def instruction (topic : Topic) (order : List Nat) : Option (Conversation × Conversation) :=
  match Connection.exchange [] with
  | none => none
  | some connection =>
    let start : Conversation := ⟨{ peer := connection.near.peer }, { peer := connection.far.peer }⟩
    let moves := [
      (.near, demand topic 70000),
      (.near, .compose 2000 false),
      (.near, demand topic 90000),
      (.near, .compose 2001 false)] ++
      order.map fun datagram ↦ (.far, .hear datagram 0 ⟨2010, 0, 0⟩)
    (start.moves? moves).map (start, ·)

theorem instructs_of_instruction {order : List Nat}
    (h : instruction topic order = some (start, conversation)) :
    Instructs topic start conversation := by
  unfold instruction at h
  split at h
  · cases h
  · dsimp only at h
    obtain ⟨last, hmoves, hpair⟩ := Option.map_eq_some_iff.mp h
    obtain ⟨rfl, rfl⟩ := Prod.mk.inj hpair
    refine run_of_moves? (fun move hmove other ↦ ?_) hmoves
    rcases List.mem_append.mp hmove with hnear | hfar
    · have hany (move : Party.Move) : other.Permits (fun _ ↦ .free) (fun _ ↦ .follows topic)
          (.near, move) := by
        cases move <;> trivial
      simp only [List.mem_cons, List.not_mem_nil, or_false] at hnear
      rcases hnear with rfl | rfl | rfl | rfl <;> exact hany _
    · obtain ⟨datagram, -, rfl⟩ := List.mem_map.mp hfar
      trivial

/-! ## The setting in force -/

/-- What is in force is what was heard last, and what the other side began with if nothing was
heard. It is the command with the highest number if this side's numbers have not wrapped and no
command was heard after one with a higher number. -/
theorem Instructs.inForce_eq_last (hrun : Instructs topic start conversation)
    (hbegins : start.Begins topic) (hconnected : conversation.far.peer.state = .connected) :
    (conversation.far.asked topic = [] →
      conversation.far.inForce topic = start.far.inForce topic) ∧
    (∀ last, (conversation.far.asked topic).getLast? = some last →
      last.asks topic = some (conversation.far.inForce topic)) ∧
    (conversation.near.issued.Pairwise (·.sequence < ·.sequence) →
      (conversation.far.asked topic).Pairwise (·.sequence ≤ ·.sequence) →
        ∀ newest ∈ conversation.far.asked topic,
          (∀ other ∈ conversation.far.asked topic, other.sequence ≤ newest.sequence) →
            newest.asks topic = some (conversation.far.inForce topic)) := by
  have hobeyed := hrun.obeyed hbegins
  refine ⟨hobeyed.heeds.unasked hconnected, hobeyed.heeds.last hconnected, ?_⟩
  intro hrising hordered newest hnewest hhighest
  obtain ⟨earlier, last, hasked⟩ : ∃ earlier last,
      conversation.far.asked topic = earlier ++ [last] := by
    rcases List.eq_nil_or_concat' (conversation.far.asked topic) with hnone | hlast
    · rw [hnone] at hnewest
      cases hnewest
    · exact hlast
  have hlast : last ∈ conversation.far.asked topic := by
    rw [hasked]
    exact List.mem_append_right _ List.mem_cons_self
  have hle : newest.sequence ≤ last.sequence := by
    rw [hasked] at hnewest hordered
    rcases List.mem_append.mp hnewest with hbefore | hsame
    · exact (List.pairwise_append.mp hordered).2.2 newest hbefore last List.mem_cons_self
    · rw [List.mem_singleton.mp hsame]
      exact UInt32.le_refl _
  have hsequence : newest.sequence = last.sequence := UInt32.le_antisymm hle (hhighest last hlast)
  -- Numbers that rise do not repeat, so the two commands are one.
  have hapart : (conversation.near.issued.map (·.sequence)).Nodup :=
    List.pairwise_map.mpr (hrising.imp fun h ↦ UInt32.ne_of_lt h)
  have hsame : newest = last :=
    List.inj_on_of_nodup_map hapart (hobeyed.asked hnewest) (hobeyed.asked hlast) hsequence
  rw [hsame]
  exact hobeyed.heeds.last hconnected last (by rw [hasked, List.getLast?_concat])

/-- Two settings that are heard in order, each of them twice. -/
theorem inForce_eq_last_repeated :
    ∃ start conversation, instruction .throttle [0, 0, 1, 1] = some (start, conversation) ∧
      start.Begins .throttle ∧ conversation.far.peer.state = .connected ∧
      conversation.near.issued.Pairwise (·.sequence < ·.sequence) ∧
      (conversation.far.asked .throttle).Pairwise (·.sequence ≤ ·.sequence) ∧
      conversation.far.inForce .throttle = .throttle ⟨90000, 90000, 90000⟩ := by
  have hrun : (instruction .throttle [0, 0, 1, 1]).any fun (start, conversation) ↦
      start.Begins .throttle ∧ conversation.far.peer.state = .connected ∧
      conversation.near.issued.Pairwise (·.sequence < ·.sequence) ∧
      (conversation.far.asked .throttle).Pairwise (·.sequence ≤ ·.sequence) ∧
      ∃ newest ∈ conversation.far.asked .throttle,
        (∀ other ∈ conversation.far.asked .throttle, other.sequence ≤ newest.sequence) ∧
          newest.asks .throttle = some (.throttle ⟨90000, 90000, 90000⟩) := by
    decide +kernel
  obtain ⟨⟨start, conversation⟩, hinstruction, hobeyed⟩ := (Option.any_eq_true _ _).mp hrun
  obtain ⟨hbegins, hfar, hrising, hordered, newest, hnewest, hhighest, hasks⟩ :=
    of_decide_eq_true hobeyed
  have hinstructs := instructs_of_instruction hinstruction
  obtain ⟨-, -, hforce⟩ := hinstructs.inForce_eq_last hbegins hfar
  have hsome := hforce hrising hordered newest hnewest hhighest
  rw [hasks, Option.some.injEq] at hsome
  exact ⟨start, conversation, hinstruction, hbegins, hfar, hrising, hordered, hsome.symm⟩

/-- A setting that is overtaken by a newer one undoes it. -/
theorem newest_not_inForce_overtaken :
    ∃ start conversation, instruction .bandwidth [1, 0] = some (start, conversation) ∧
      start.Begins .bandwidth ∧ Instructs .bandwidth start conversation ∧
      conversation.near.peer.state = .connected ∧ conversation.far.peer.state = .connected ∧
      ∃ newest ∈ conversation.far.asked .bandwidth,
        (∀ other ∈ conversation.far.asked .bandwidth, other.sequence ≤ newest.sequence) ∧
          newest.asks .bandwidth ≠ some (conversation.far.inForce .bandwidth) := by
  have hrun : (instruction .bandwidth [1, 0]).any fun (start, conversation) ↦
      start.Begins .bandwidth ∧ conversation.near.peer.state = .connected ∧
      conversation.far.peer.state = .connected ∧
      ∃ newest ∈ conversation.far.asked .bandwidth,
        (∀ other ∈ conversation.far.asked .bandwidth, other.sequence ≤ newest.sequence) ∧
          newest.asks .bandwidth ≠ some (conversation.far.inForce .bandwidth) := by
    decide +kernel
  obtain ⟨⟨start, conversation⟩, hinstruction, hundone⟩ := (Option.any_eq_true _ _).mp hrun
  obtain ⟨hbegins, hnear, hfar, hnewest⟩ := of_decide_eq_true hundone
  exact ⟨start, conversation, hinstruction, hbegins, instructs_of_instruction hinstruction, hnear,
    hfar, hnewest⟩

end Conversation

end ReliableDatagram
