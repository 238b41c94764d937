import ReliableDatagram.Proofs.Channel.Delivery
import ReliableDatagram.Proofs.Connection.Opening
import ReliableDatagram.Proofs.Connection.Replay
import Mathlib.Data.List.Forall2

/-!
# Delivery in order from end to end

What one end delivers on a channel are packets that the other end submitted there, at
increasing positions of the log, none before a reliable packet that was submitted earlier.
The invariant says that each channel of the receiving end follows the log of the sending
end. Commands that arrive, in whatever order and however often, are those of the log, so
they keep it up.
-/

namespace ReliableDatagram

open Submission

namespace End

variable {near far after : End} {command : Command}

/-- The data of a command that the other end sent fits the log that the channel follows. -/
theorem Emits.follows {positions : List Nat} {value taken : Channel} (hemits : near.Emits command)
    (hlog : Numbered (near.log command.channel)) (htakes : value.Takes command taken)
    (h : value.Follows (near.log command.channel) positions) :
    taken.Follows (near.log command.channel) positions := by
  have hpayload := htakes.carriesPayload
  rcases hemits with ⟨acknowledgement, rfl⟩ | hqueues
  · cases hpayload
  cases hqueues with
  | control hcontrols =>
    rw [hcontrols.2] at hpayload
    cases hpayload
  | reliable howes =>
    obtain ⟨lane, i, submission, hget, hissues⟩ := howes
    have hlane : submission.channel = lane := channel_of_mem_log (List.mem_of_getElem? hget)
    rw [hissues.channel_eq, hlane] at h hlog ⊢
    cases hissues with
    | whole hwhole hreliable =>
      cases htakes with
      | reliable hbody =>
        cases hbody
        exact h.queueReliable (.intro hget (.whole hwhole hreliable))
      | fragment hbody => cases hbody
      | unreliable hbody => cases hbody
      | unsequenced hbody => cases hbody
      | repeated hbody => cases hbody
    | fragment hrun hfragment =>
      cases htakes with
      | reliable hbody => cases hbody
      | fragment hbody =>
        cases hbody
        exact h.addFragment hlog hget hrun (List.mem_of_getElem? hfragment)
      | unreliable hbody => cases hbody
      | unsequenced hbody => cases hbody
      | repeated hbody => cases hbody
  | @unreliable lane i submission hget hkind =>
    have hlane : submission.channel = lane := channel_of_mem_log (List.mem_of_getElem? hget)
    have hchannel : (submission.unreliableCommand (reliableBefore (near.log lane) i)
      (unreliableBefore (near.log lane) i)).channel = lane := hlane
    rw [hchannel] at h ⊢
    cases htakes with
    | reliable hbody => cases hbody
    | fragment hbody => cases hbody
    | unreliable hbody =>
      cases hbody
      exact h.queueUnreliable (.sequenced hget hkind)
    | unsequenced hbody => cases hbody
    | repeated hbody => cases hbody
  | unsequenced hbody =>
    cases htakes with
    | reliable hother => rw [hbody] at hother; cases hother
    | fragment hother => rw [hbody] at hother; cases hother
    | unreliable hother => rw [hbody] at hother; cases hother
    | unsequenced => exact h.queueUnsequenced rfl rfl
    | repeated => exact h

/-! ## What was delivered -/

/-- The packets were submitted at these positions of the log. -/
def Stands (log : List Submission) (positions : List Nat) (packets : List Packet) : Prop :=
  List.Forall₂ (fun i packet ↦ ∃ submission, log[i]? = some submission ∧
    packet = submission.delivered) positions packets

theorem Stands.mono {log more : List Submission} {positions : List Nat} {packets : List Packet}
    (h : Stands log positions packets) : Stands (log ++ more) positions packets := by
  refine List.Forall₂.imp ?_ h
  rintro i packet ⟨submission, hget, hpacket⟩
  exact ⟨submission, getElem?_append_of_some hget, hpacket⟩

theorem Stands.concat {log : List Submission} {positions : List Nat} {packets : List Packet}
    {i : Nat} {submission : Submission} (h : Stands log positions packets)
    (hget : log[i]? = some submission) :
    Stands log (positions ++ [i]) (packets ++ [submission.delivered]) :=
  List.rel_append h (.cons ⟨submission, hget, rfl⟩ .nil)

/-- The reliable ones of the packets are those that stand at reliable positions. -/
theorem Stands.filter_reliable {log : List Submission} {positions : List Nat}
    {packets : List Packet} (h : Stands log positions packets) :
    packets.filter (·.flags = .reliable) = positions.filterMap (reliableAt log) := by
  induction h with
  | nil => rfl
  | cons hhead _ ih =>
    obtain ⟨submission, hget, rfl⟩ := hhead
    rw [List.filter_cons, List.filterMap_cons, reliableAt, hget, Option.bind_some, ih]
    cases hkind : submission.isReliable <;> simp [flags_delivered, hkind]

/-- The packets that were delivered on a channel, but for unsequenced ones. -/
def sequenced (e : End) (lane : UInt8) : List Packet :=
  (e.delivered lane).filter (·.flags ≠ .unsequenced)

/-- The reliable packets among those that were delivered. -/
theorem filter_reliable_delivered {e : End} {lane : UInt8} {log : List Submission}
    {positions : List Nat} (h : Stands log positions (e.sequenced lane)) :
    (e.delivered lane).filter (·.flags = .reliable) = positions.filterMap (reliableAt log) := by
  rw [← h.filter_reliable, sequenced, List.filter_filter]
  apply List.filter_congr
  intro packet _
  by_cases hflags : packet.flags = .reliable
  · rw [hflags]
    rfl
  · simp [hflags]

/-- Each channel of the far end follows the log of the near end, and what was delivered on it
stands there. -/
def Ordered (near far : End) : Prop :=
  ∀ lane, ∃ positions, (far.channel lane).Follows (near.log lane) positions ∧
    Stands (near.log lane) positions (far.sequenced lane)

namespace Ordered

/-- The near end does something: at most its log grows. -/
theorem near_step (h : Ordered near far) {checksums : Bool} {incoming : List Bytes}
    (hstep : Step checksums incoming near after) (hafter : after.Fits)
    (horderly : after.Orderly) : Ordered after far := by
  obtain ⟨-, -, more, hmore⟩ := hstep.fits hafter
  intro lane
  obtain ⟨positions, hfollows, hstands⟩ := h lane
  have hnumbered := horderly.numbered lane
  rw [log_append hmore] at hnumbered ⊢
  exact ⟨positions, hfollows.append hnumbered, hstands.mono⟩

/-- The channels take part in sending with their other counters only. -/
theorem of_incoming (h : Ordered near far) (htaken : after.taken = far.taken)
    (hchannel : ∀ lane, ∃ reliable unreliable, after.channel lane = { far.channel lane with
      outgoingReliable := reliable
      outgoingUnreliable := unreliable }) : Ordered near after := by
  intro lane
  obtain ⟨positions, hfollows, hstands⟩ := h lane
  obtain ⟨reliable, unreliable, heq⟩ := hchannel lane
  refine ⟨positions, ?_, ?_⟩
  · rw [heq]
    exact { hfollows with }
  · rw [sequenced, delivered, htaken]
    exact hstands

theorem handles (h : Ordered near far) (horderly : near.Orderly) (hemits : near.Emits command)
    {peer : Peer} (hhandles : far.peer.Handles command peer) :
    Ordered near { far with peer := peer } := by
  intro lane
  obtain ⟨positions, hfollows, hstands⟩ := h lane
  refine ⟨positions, ?_, hstands⟩
  rcases hhandles.channels with hsame | ⟨value, taken, hvalue, htakes, hset⟩
  · rw [channel_congr (e := far) hsame]
    exact hfollows
  · rw [channel_set hvalue hset]
    split
    · rename_i heq
      subst heq
      rw [channel_of_eq_some hvalue] at hfollows
      exact hemits.follows (horderly.numbered _) htakes hfollows
    · exact hfollows

theorem receive (h : Ordered near far) (horderly : near.Orderly) (lane : UInt8) :
    Ordered near (far.receive lane) := by
  obtain ⟨-, -, -, hchannel, hdelivered⟩ := far.receive_eq lane
  intro other
  obtain ⟨positions, hfollows, hstands⟩ := h other
  have hsequenced : (far.receive lane).sequenced other = far.sequenced other ++
      (if other = lane then (far.channel lane).receive.1.toList else []).filter
        (·.flags ≠ .unsequenced) := by
    rw [sequenced, hdelivered, List.filter_append, sequenced]
  rw [hchannel, hsequenced]
  by_cases heq : other = lane
  · subst heq
    have hdelivery := hfollows.receive (horderly.numbered other)
    rw [if_pos rfl, if_pos rfl]
    generalize (far.channel other).receive = result at hdelivery ⊢
    cases hdelivery with
    | nothing => exact ⟨positions, hfollows, by simpa using hstands⟩
    | unsequenced hflags hafter => exact ⟨positions, hafter, by simpa [hflags] using hstands⟩
    | @next i submission _ hget hkind hafter =>
      refine ⟨positions ++ [i], hafter, ?_⟩
      have hflags := flags_delivered_ne hkind
      simpa [hflags] using hstands.concat hget
  · rw [if_neg heq, if_neg heq]
    exact ⟨positions, hfollows, by simpa using hstands⟩

/-- The far end does something, and only what the near end composed can reach it. -/
theorem far_step (h : Ordered near far) (horderly : near.Orderly)
    (hstep : Step near.peer.settings.checksums near.composed far after) (hafter : after.Fits) :
    Ordered near after := by
  have hfits := (hstep.fits hafter).1
  cases hstep with
  | @submit lane packet peer hsend =>
    obtain ⟨value, hvalue, hsends⟩ := Peer.send_eq_ok hsend (hfits.ne_controlChannel hsend)
    have hset := (hsends []).channels
    refine h.of_incoming rfl fun other ↦ ?_
    rw [channel_set hvalue hset]
    split
    · rename_i heq
      rw [heq, channel_of_eq_some hvalue]
      exact ⟨_, _, rfl⟩
    · exact ⟨_, _, rfl⟩
  | @compose now check =>
    obtain ⟨commands, hcomposes, -, htaken, -⟩ := compose_of_isUnderWay hafter.underWay
    refine h.of_incoming htaken fun other ↦ ?_
    exact ⟨_, _, channel_congr hcomposes.channels other⟩
  | @arrive datagram header commands peer hdatagram hreads hhandles =>
    refine hhandles.preserves (P := fun middle ↦ Ordered near { far with peer := middle })
      hafter.underWay ?_ h
    intro command hcommand middle next hmiddle hhandled _
    exact hmiddle.handles horderly
      (horderly.composed datagram hdatagram header commands hreads command hcommand) hhandled
  | @receive lane => exact h.receive horderly lane

end Ordered

theorem Quiet.ordered (hnear : near.Quiet) (hfar : far.Quiet) : Ordered near far := by
  intro lane
  refine ⟨[], ?_, ?_⟩
  · rw [hnear.log_eq, hfar.channels]
    exact Channel.Follows.start
  · rw [sequenced, hfar.delivered]
    exact List.Forall₂.nil

end End

namespace Connection

variable {connection after : Connection}

/-- Both ends are under way within their bounds. -/
def Fits (connection : Connection) : Prop := connection.near.Fits ∧ connection.far.Fits

theorem Step.fits (hstep : Step connection after) (hafter : after.Fits) : connection.Fits := by
  cases hstep with
  | near hstep => exact ⟨(hstep.fits hafter.1).1, hafter.2⟩
  | far hstep => exact ⟨hafter.1, (hstep.fits hafter.2).1⟩

theorem Reachable.orderly (h : Reachable connection) (hfits : connection.Fits) :
    connection.near.Orderly ∧ connection.far.Orderly := by
  induction h with
  | asked hopens =>
    obtain ⟨hasks, hquiet, -⟩ := hopens.quiet hfits.1
    exact ⟨hasks.toQuiet.orderly, hquiet.orderly⟩
  | granted hopens =>
    obtain ⟨hasks, hquiet, -⟩ := hopens.quiet hfits.2
    exact ⟨hquiet.orderly, hasks.toQuiet.orderly⟩
  | step _ hstep ih =>
    obtain ⟨hnear, hfar⟩ := ih (hstep.fits hfits)
    cases hstep with
    | near hstep => exact ⟨hnear.step hstep hfits.1, hfar⟩
    | far hstep => exact ⟨hnear, hfar.step hstep hfits.2⟩

theorem Reachable.ordered (h : Reachable connection) (hfits : connection.Fits) :
    End.Ordered connection.near connection.far := by
  induction h with
  | asked hopens =>
    obtain ⟨hasks, hquiet, -⟩ := hopens.quiet hfits.1
    exact hasks.toQuiet.ordered hquiet
  | granted hopens =>
    obtain ⟨hasks, hquiet, -⟩ := hopens.quiet hfits.2
    exact hquiet.ordered hasks.toQuiet
  | step hbefore hstep ih =>
    have hpast := hstep.fits hfits
    have horderly := (hbefore.orderly hpast).1
    cases hstep with
    | near hstep => exact (ih hpast).near_step hstep hfits.1 (horderly.step hstep hfits.1)
    | far hstep => exact (ih hpast).far_step horderly hstep hfits.2

/-! ## What the application sees -/

/-- The packets that the far end delivered on a channel, in their order, are packets that the
near end submitted there, at increasing positions of its log, and no reliable packet is passed
over; the reliable ones among them are the first reliable ones that were submitted. -/
structure DeliversInOrder (connection : Connection) (lane : UInt8) : Prop where
  positions : ∃ positions : List Nat, positions.Pairwise (· < ·) ∧
    End.Stands (connection.near.log lane) positions (connection.far.sequenced lane) ∧
    ∀ i ∈ positions, ∀ j < i, ∀ submission, (connection.near.log lane)[j]? = some submission →
      submission.isReliable = true → j ∈ positions
  reliable : (connection.far.delivered lane).filter (·.flags = .reliable) <+:
    ((connection.near.log lane).filter (·.isReliable)).map (·.delivered)

/-- However packets are submitted, and however datagrams are composed, lost, repeated and
reordered on their way, delivery is in order as long as the connection is under way. -/
theorem Reachable.deliversInOrder (h : Reachable connection) (hfits : connection.Fits)
    (lane : UInt8) : connection.DeliversInOrder lane := by
  obtain ⟨positions, hfollows, hstands⟩ := h.ordered hfits lane
  have hnumbered := (h.orderly hfits).1.numbered lane
  constructor
  · refine ⟨positions, hfollows.progress.increasing, hstands, ?_⟩
    intro i hi j hj submission hget hkind
    exact hfollows.progress.mem_of_lt hi hj hget hkind
  · rw [End.filter_reliable_delivered hstands]
    exact hfollows.progress.reliable_prefix hnumbered

/-- Both packets of the small exchange are delivered, each once and in order. -/
theorem deliversInOrder_exchange :
    ∃ connection, exchange [(.far, .receive 0), (.far, .receive 0), (.far, .receive 0)] =
        some connection ∧ connection.Fits ∧
      connection.far.delivered 0 = [⟨[1, 2, 3], .reliable⟩, ⟨[4], .plain⟩] ∧
      connection.DeliversInOrder 0 := by
  refine ⟨_, Option.eq_some_of_isSome (by decide +kernel), ?fits, by decide +kernel,
    Reachable.deliversInOrder (reachable_of_exchange (Option.eq_some_of_isSome _)) ?fits 0⟩
  constructor
  all_goals apply End.fits_of_submitted
  all_goals decide +kernel

end Connection

end ReliableDatagram
