import ReliableDatagram.Proofs.Host.Receipts

/-!
# Connections that share an address and a challenge

A host opens no connection for an address and a challenge that one of its connections is known
by then. But the other end of a connection may move to another port, and nothing is looked up
when it does. So two connections come to be known by the same address and challenge in one way
only: a datagram moves the other end of one of them to where that of the other one is.
-/

namespace ReliableDatagram

open Host

variable {σ : Type}

structure Receipt.Relocates (env : Environment σ) (receipt : Receipt σ) (id : PeerId)
    (challenge : UInt32) : Prop where
  named : ∃ header, receipt.before.header? env receipt.address receipt.datagram = some header ∧
    header.peer = id ∧ header.challenge = challenge
  moved : ∃ known, receipt.before.host.Knows id known challenge ∧
    known.host = receipt.address.host ∧ known ≠ receipt.address

namespace Host

variable {host after : Host} {first second : PeerId} {address place : Address}
  {challenge : UInt32} {header : Header}

/-- Two slots are occupied by connections that are known by this address and challenge. -/
def Shares (host : Host) (first second : PeerId) (address : Address) (challenge : UInt32) : Prop :=
  host.Knows first address challenge ∧ host.Knows second address challenge

theorem knows_of_eq (hslot : after.peer? first = host.peer? first)
    (h : after.Knows first address challenge) : host.Knows first address challenge := by
  obtain ⟨peer, hpeer, hknown⟩ := h
  exact ⟨peer, hslot ▸ hpeer, hknown⟩

/-- One datagram makes one connection known by something new at most. -/
theorem Lands.knows (h : Lands host place header after) (hne : first ≠ second)
    (hshares : after.Shares first second address challenge) :
    host.Knows first address challenge ∨ host.Knows second address challenge := by
  have hone {id : PeerId} (hothers : ∀ other ≠ id, after.peer? other = host.peer? other) :
      host.Knows first address challenge ∨ host.Knows second address challenge := by
    by_cases heq : first = id
    · exact .inr (knows_of_eq (hothers second fun hid ↦ hne (heq.trans hid.symm)) hshares.2)
    · exact .inl (knows_of_eq (hothers first heq) hshares.1)
  cases h with
  | named _ _ hothers _ => exact hone hothers
  | opened _ _ hothers _ => exact hone hothers

/-- A connection that a datagram makes known by what another one is known by has moved there. -/
theorem Lands.moved (h : Lands host place header after) (halive : host.Alive)
    (hother : host.Knows second address challenge) (hafter : after.Knows first address challenge)
    (hnew : ¬ host.Knows first address challenge) :
    place = address ∧ header.peer = first ∧ header.challenge = challenge ∧
      ∃ known, host.Knows first known challenge ∧ known.host = place.host ∧ known ≠ place := by
  have hmoved {id : PeerId} (hothers : ∀ other ≠ id, after.peer? other = host.peer? other)
      (hslot : after.Holds id place header.challenge) :
      first = id ∧ place = address ∧ header.challenge = challenge := by
    by_cases heq : first = id
    · obtain ⟨peer, hpeer, hknown⟩ := hafter
      have hsame := (hslot peer (heq ▸ hpeer)).1.symm.trans hknown
      obtain ⟨haddress, hchallenge⟩ := Prod.mk.inj hsame
      exact ⟨heq, Option.some.inj haddress, hchallenge⟩
    · exact absurd (knows_of_eq (hothers first heq) hafter) hnew
  cases h with
  | @named peer known _ hbelongs hothers hslot =>
    obtain ⟨rfl, rfl, rfl⟩ := hmoved hothers hslot
    have hknown : host.Knows header.peer known header.challenge :=
      ⟨peer, hbelongs.slot, Prod.ext hbelongs.address hbelongs.challenge⟩
    refine ⟨rfl, rfl, rfl, known, hknown, hbelongs.network, ?_⟩
    rintro rfl
    exact hnew hknown
  | opened hunknown _ hothers hslot =>
    obtain ⟨-, rfl, rfl⟩ := hmoved hothers hslot
    have hfound := halive.hasConnection hother
    rw [hunknown] at hfound
    cases hfound

end Host

variable {env : Environment σ} {past : List (Receipt σ)} {host : Host} {first second : PeerId}
  {address : Address} {challenge : UInt32}

/-- A datagram has moved the other end of one of two connections to where that of the other one
was, and every later datagram has found both there. -/
def Collided (env : Environment σ) (past : List (Receipt σ)) (first second : PeerId)
    (address : Address) (challenge : UInt32) : Prop :=
  ∃ earlier receipt later, past = earlier ++ receipt :: later ∧ receipt.address = address ∧
    (receipt.Relocates env first challenge ∧
        receipt.before.host.Knows second address challenge ∨
      receipt.Relocates env second challenge ∧
        receipt.before.host.Knows first address challenge) ∧
    ∀ next ∈ later, next.before.host.Shares first second address challenge

theorem Collided.receive {receipt : Receipt σ}
    (h : Collided env past first second address challenge)
    (hshares : receipt.before.host.Shares first second address challenge) :
    Collided env (past ++ [receipt]) first second address challenge := by
  obtain ⟨earlier, collision, later, rfl, hplace, hmoved, hlater⟩ := h
  refine ⟨earlier, collision, later ++ [receipt], ?_, hplace, hmoved, fun next hnext ↦ ?_⟩
  · rw [List.append_assoc, List.cons_append]
  · rcases List.mem_append.mp hnext with hnext | hnext
    · exact hlater next hnext
    · rw [List.mem_singleton.mp hnext]
      exact hshares

/-- Connections that share their address and challenge have collided. -/
theorem History.collided (h : History env past host) (hne : first ≠ second)
    (hshares : host.Shares first second address challenge) :
    Collided env past first second address challenge := by
  induction h with
  | start =>
    obtain ⟨peer, hpeer, -⟩ := hshares.1
    rw [peer?_create] at hpeer
    cases hpeer
  | idle _ hidles ih =>
    exact ih ⟨hidles.remains.knows hshares.1, hidles.remains.knows hshares.2⟩
  | @receive past live after place datagram hhistory hhandle ih =>
    obtain ⟨hsound, halive⟩ := hhistory.sound
    obtain ⟨-, hsame | ⟨header, hheader, hlands⟩⟩ :=
      LiveHost.handleDatagram_lands env hhandle hsound
    · rw [hsame] at hshares
      exact (ih hshares).receive hshares
    · by_cases hfirst : live.host.Knows first address challenge
      · by_cases hsecond : live.host.Knows second address challenge
        · exact (ih ⟨hfirst, hsecond⟩).receive ⟨hfirst, hsecond⟩
        · obtain ⟨rfl, hnamed, hchallenge, hmoved⟩ := hlands.moved halive hfirst hshares.2 hsecond
          exact ⟨past, _, [], rfl, rfl, .inr ⟨⟨⟨header, hheader, hnamed, hchallenge⟩, hmoved⟩,
            hfirst⟩, fun _ hnext ↦ absurd hnext List.not_mem_nil⟩
      · have hsecond := (hlands.knows hne hshares).resolve_left hfirst
        obtain ⟨rfl, hnamed, hchallenge, hmoved⟩ := hlands.moved halive hsecond hshares.1 hfirst
        exact ⟨past, _, [], rfl, rfl, .inl ⟨⟨⟨header, hheader, hnamed, hchallenge⟩, hmoved⟩,
          hsecond⟩, fun _ hnext ↦ absurd hnext List.not_mem_nil⟩

/-- What a host is after a run and whenever a datagram reaches it, with the datagrams that it
has handled by then. -/
inductive Moment (env : Environment σ) (turns : List (Turn σ)) (live : LiveHost σ) :
    List (Receipt σ) → Host → Prop where
  | rest : Moment env turns live (turns.flatMap (·.receipts env)) live.host
  | receipt {earlier later : List (Receipt σ)} {receipt : Receipt σ}
      (h : turns.flatMap (·.receipts env) = earlier ++ receipt :: later) :
      Moment env turns live earlier receipt.before.host

namespace Run

variable {turns : List (Turn σ)} {live : LiveHost σ}

/-- At no moment are two connections known by the same address and challenge, unless they have
collided; and a datagram that names no slot does nothing if it comes from where a connection
under its challenge is known. -/
theorem collided_of_shares (h : Run env turns live)
    (haccepts : ∀ turn ∈ turns, turn.operation.Accepts) :
    (∀ past host, Moment env turns live past host → ∀ first second address challenge,
      first ≠ second → host.Shares first second address challenge →
        Collided env past first second address challenge) ∧
    ∀ receipt ∈ turns.flatMap (·.receipts env), ∀ header id,
      receipt.before.header? env receipt.address receipt.datagram = some header →
      header.isUnassigned = true →
      receipt.before.host.Knows id receipt.address header.challenge →
      ∃ world, receipt.before.handleDatagram env receipt.address receipt.datagram =
        .ok ⟨receipt.before.host, world⟩ := by
  have hhistory := h.history haccepts
  constructor
  · intro past host hmoment first second address challenge hne hshares
    cases hmoment with
    | rest => exact hhistory.collided hne hshares
    | receipt heq => exact (hhistory.before heq).collided hne hshares
  · intro receipt hreceipt header id hheader hunassigned hknows
    obtain ⟨earlier, later, heq⟩ := List.append_of_mem hreceipt
    have halive := (hhistory.before heq).sound.2
    exact LiveHost.handleDatagram_of_knows env halive hheader hunassigned hknows

/-- A datagram of a connection without any commands. -/
def token : Bytes := Header.encode ⟨0, 0, 0, 6, 7⟩

/-- The other end of a connection moves to another port and back, and in between its request
for the connection arrives once more. -/
def roaming : List (Operation Script) := [
  .outside fun script ↦ { script with arriving := [
    (Reported.request, ⟨"10.0.0.9", 9⟩),
    (token, ⟨"10.0.0.9", 10⟩),
    (Reported.request, ⟨"10.0.0.9", 9⟩),
    (token, ⟨"10.0.0.9", 9⟩)] },
  .service 0 1]

theorem accepts_of_roaming {turns : List (Turn Script)} {live : LiveHost Script}
    (h : rehearse roaming = some (turns, live)) : ∀ turn ∈ turns, turn.operation.Accepts := by
  refine LiveHost.forall_of_performAll? h fun operation hmem ↦ ?_
  simp only [roaming, List.mem_cons, List.not_mem_nil, or_false] at hmem
  rcases hmem with rfl | rfl <;> trivial

theorem exists_roaming : ∃ turns live, rehearse roaming = some (turns, live) ∧
    live.host.Shares 0 1 ⟨"10.0.0.9", 9⟩ 7 := by
  have hreplay : ((rehearse roaming).any fun (_, live) ↦
      (live.host.peer? 0).any (·.known = (some ⟨"10.0.0.9", 9⟩, 7)) &&
        (live.host.peer? 1).any (·.known = (some ⟨"10.0.0.9", 9⟩, 7))) := by
    decide +kernel
  obtain ⟨⟨turns, live⟩, hlive, hboth⟩ := (Option.any_eq_true _ _).mp hreplay
  rw [Bool.and_eq_true, Option.any_eq_true, Option.any_eq_true] at hboth
  obtain ⟨⟨first, hfirst, hfirstknown⟩, second, hsecond, hsecondknown⟩ := hboth
  exact ⟨turns, live, hlive, ⟨first, hfirst, of_decide_eq_true hfirstknown⟩,
    ⟨second, hsecond, of_decide_eq_true hsecondknown⟩⟩

/-- The connection that the repeated request has opened shares the address and the challenge of
the first one in the end. -/
theorem shares_roaming : ∃ turns live, Run Script.environment turns live ∧
    (∀ turn ∈ turns, turn.operation.Accepts) ∧ turns.map (·.operation) = roaming ∧
    live.host.Shares 0 1 ⟨"10.0.0.9", 9⟩ 7 := by
  obtain ⟨turns, live, hlive, hshares⟩ := exists_roaming
  exact ⟨turns, live, run_of_rehearse hlive, accepts_of_roaming hlive,
    LiveHost.operations_of_performAll? hlive, hshares⟩

/-- It does so because the other end of the first one has moved back. -/
theorem collided_of_shares_roaming : ∃ turns live, rehearse roaming = some (turns, live) ∧
    Collided Script.environment (turns.flatMap (·.receipts Script.environment)) 0 1
      ⟨"10.0.0.9", 9⟩ 7 := by
  obtain ⟨turns, live, hlive, hshares⟩ := exists_roaming
  have hcollided := (collided_of_shares (run_of_rehearse hlive) (accepts_of_roaming hlive)).1
  exact ⟨turns, live, hlive, hcollided _ _ .rest 0 1 _ _ (by decide) hshares⟩

end Run

end ReliableDatagram
