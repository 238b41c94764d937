import ReliableDatagram.Proofs.Host.Isolation
import ReliableDatagram.Proofs.Host.Trails
import ReliableDatagram.Proofs.Host.Vacancy

/-!
# The datagrams that a host has handled

As far as it is concerned where the other ends of its connections are, the history of a host
that begins no connections of its own is the list of the datagrams that have arrived. Between
two of them connections only go on or end. A datagram finds a connection where its other end
is, moves it to another port there, or opens one in a vacant slot.
-/

namespace ReliableDatagram

namespace Host

variable {host after : Host} {id : PeerId} {address : Address} {challenge : UInt32}
  {header : Header} {command : Command} {context : Context} {datagram content : Bytes}

/-! ## Between two datagrams -/

/-- A slot is occupied by a connection that is known by this address and challenge. -/
def Knows (host : Host) (id : PeerId) (address : Address) (challenge : UInt32) : Prop :=
  ∃ peer, host.peer? id = some peer ∧ peer.known = (some address, challenge)

def Alive (host : Host) : Prop :=
  ∀ id peer, host.peer? id = some peer → peer.state ≠ .disconnected

/-- What a host does to its connections between two datagrams. -/
structure Idles (host after : Host) : Prop where
  remains : Remains host after
  sound : host.table.Sound → after.table.Sound

theorem Idles.of_eq (htable : after.table = host.table) : Idles host after where
  remains := .of_eq fun id ↦ by rw [peer?, htable]; rfl
  sound hsound := htable ▸ hsound

theorem LocalRun.idles (h : host.LocalRun after) : Idles host after where
  remains id next hnext := by
    obtain ⟨peer, hpeer, hrun⟩ := h.peer? hnext
    exact ⟨peer, hpeer, hrun.stays⟩
  sound := h.sound

theorem Concludes.idles {event : Option Event} (h : host.Concludes event after) :
    Idles host after := .of_eq h.table

theorem Remains.alive (h : Remains host after) (halive : host.Alive) : after.Alive := by
  intro id next hnext
  obtain ⟨peer, hpeer, hstays⟩ := h id next hnext
  exact hstays.continues.alive (halive id peer hpeer)

theorem Remains.knows (h : Remains host after) (hknows : after.Knows id address challenge) :
    host.Knows id address challenge := by
  obtain ⟨next, hnext, hknown⟩ := hknows
  obtain ⟨peer, hpeer, hstays⟩ := h id next hnext
  exact ⟨peer, hpeer, hstays.known.symm.trans hknown⟩

/-! ## A datagram -/

/-- If a slot is occupied, then by a connection that is known by this address and challenge and
is not over. -/
def Holds (host : Host) (id : PeerId) (address : Address) (challenge : UInt32) : Prop :=
  ∀ peer, host.peer? id = some peer →
    peer.known = (some address, challenge) ∧ peer.state ≠ .disconnected

theorem Holds.of_none (h : host.peer? id = none) : host.Holds id address challenge := by
  intro peer hpeer
  rw [h] at hpeer
  cases hpeer

theorem Holds.of_some {peer : Peer} (h : host.peer? id = some peer)
    (hknown : peer.known = (some address, challenge)) (halive : peer.state ≠ .disconnected) :
    host.Holds id address challenge := by
  intro other hother
  cases h.symm.trans hother
  exact ⟨hknown, halive⟩

/-- Handling a command leaves the connection known as it was, or frees its slot. -/
theorem Outcome.holds {goesOn : Bool} (h : Outcome host id goesOn after)
    (hholds : host.Holds id address challenge) : after.Holds id address challenge := by
  have hsame {peer next : Peer} (hhost : host.peer? id = some peer) (hnext : peer.Stays next) :
      (host.setPeer id next).Holds id address challenge := by
    obtain ⟨hknown, halive⟩ := hholds peer hhost
    exact .of_some (peer?_setPeer_self hhost) (hnext.known.trans hknown)
      (hnext.continues.alive halive)
  cases h with
  | absent => exact hholds
  | goesOn hhost hnext => exact hsame hhost hnext
  | connected hhost hnext => exact hsame hhost hnext
  | ends hhost =>
    apply Holds.of_none
    rw [release_setPeer hhost, peer?, table_reportDeparture]
    exact SlotTable.get?_release_self ..

theorem handleCommands_holds {count : Nat} {bytes : Bytes}
    (h : handleCommands header address context count (some id) bytes host = .ok after)
    {place : Address} (hsound : host.table.Sound) (hholds : host.Holds id place challenge) :
    after.table.Sound ∧ after.Holds id place challenge :=
  handleCommands_preserves (fun host ↦ host.table.Sound ∧ host.Holds id place challenge)
    (fun hkept hhandle ↦ ⟨(handleCommand_outcome hhandle).passes.2 hkept.1,
      (handleCommand_outcome hhandle).holds hkept.2⟩) h ⟨hsound, hholds⟩

/-- What a datagram with this header from this address does if it changes anything. -/
inductive Lands (host : Host) (address : Address) (header : Header) (after : Host) : Prop where
  /-- It belongs to the connection that it names, whose other end is where it comes from then. -/
  | named {peer : Peer} {known : Address} (hnamed : header.isUnassigned = false)
      (hbelongs : host.Belongs address header peer known)
      (hothers : ∀ other ≠ header.peer, after.peer? other = host.peer? other)
      (hslot : after.Holds header.peer address header.challenge) : Lands host address header after
  /-- It opens a connection that was not there. -/
  | opened {id : PeerId} (hunknown : host.table.hasConnection address header.challenge = false)
      (hvacant : host.peer? id = none)
      (hothers : ∀ other ≠ id, after.peer? other = host.peer? other)
      (hslot : after.Holds id address header.challenge) : Lands host address header after

theorem handleContent_lands {length : Nat} {now : Stamp}
    (h : host.handleContent address header length content now = .ok after)
    (hsound : host.table.Sound) :
    after.table.Sound ∧ (after = host ∨ Lands host address header after) := by
  cases delivers_of_handleContent h hsound with
  | nothing => exact ⟨hsound, .inl rfl⟩
  | opened _ hopens hrest =>
    obtain ⟨slot, peer, -, haccept, hpeer⟩ := hopens.opened
    obtain ⟨_, _, _, -, -, -, hgranted⟩ := Peer.accept_eq_ok haccept
    have halive : peer.state ≠ .disconnected := by
      rw [hgranted.state]
      decide
    obtain ⟨hafter, hslot⟩ := handleCommands_holds hrest hopens.sound
      (.of_some hpeer (Peer.accept_known haccept) halive)
    refine ⟨hafter, .inr (.opened hopens.unknown hopens.vacant (fun other hne ↦ ?_) hslot)⟩
    exact (handleCommands_others hrest hne).trans (hopens.others other hne)
  | @named peer known _ _ _ hnamed hbelongs hrest =>
    have hslot : (host.setPeer header.peer ((peer.relocate address).recordReceived length)).peer?
        header.peer = some ((peer.relocate address).recordReceived length) :=
      peer?_setPeer_self hbelongs.slot
    have hknown : ((peer.relocate address).recordReceived length).known =
        (some address, header.challenge) := by
      rw [← hbelongs.challenge]
      rfl
    have halive : peer.state ≠ .disconnected := by
      intro hover
      have hactive := hbelongs.active
      rw [hover] at hactive
      cases hactive
    obtain ⟨hafter, hholds⟩ := handleCommands_holds hrest (hsound.set hbelongs.slot)
      (.of_some hslot hknown halive)
    refine ⟨hafter, .inr (.named hnamed hbelongs (fun other hne ↦ ?_) hholds)⟩
    rw [handleCommands_others hrest hne, peer?_setPeer_of_ne hbelongs.slot hne]

theorem Lands.alive (h : Lands host address header after) (halive : host.Alive) :
    after.Alive := by
  intro slot peer hpeer
  have hkept {id : PeerId} (hothers : ∀ other ≠ id, after.peer? other = host.peer? other)
      (hslot : after.Holds id address header.challenge) : peer.state ≠ .disconnected := by
    by_cases heq : slot = id
    · exact (hslot peer (heq ▸ hpeer)).2
    · exact halive slot peer ((hothers slot heq).symm.trans hpeer)
  cases h with
  | named _ _ hothers hslot => exact hkept hothers hslot
  | opened _ _ hothers hslot => exact hkept hothers hslot

/-! ## A repeated request -/

/-- A connection that is not over is found by its address and challenge. -/
theorem Alive.hasConnection (h : host.Alive) (hknows : host.Knows id address challenge) :
    host.table.hasConnection address challenge = true := by
  obtain ⟨peer, hpeer, hknown⟩ := hknows
  obtain ⟨haddress, hchallenge⟩ := Prod.mk.inj hknown
  have hmatches : SlotTable.matchesConnection address challenge peer = true := by
    simp [SlotTable.matchesConnection, h id peer hpeer, haddress, hchallenge]
  have hslot : host.table.slots[id.index]? = some (some peer) := Option.join_eq_some_iff.mp hpeer
  obtain ⟨hindex, hget⟩ := Array.getElem?_eq_some_iff.mp hslot
  rw [SlotTable.hasConnection, Array.any_eq_true]
  exact ⟨id.index, hindex, by rw [hget]; exact hmatches⟩

/-- The commands of a datagram without a connection do nothing if there is a connection of its
address and challenge. -/
theorem handleCommands_of_hasConnection
    (h : host.table.hasConnection address header.challenge = true) (context : Context)
    (count : Nat) (bytes : Bytes) :
    handleCommands header address context count none bytes host = .ok host := by
  cases count with
  | zero => rfl
  | succ count =>
    unfold handleCommands
    split
    · rfl
    · split
      · rfl
      · dsimp only
        split
        · rename_i offer _
          have hrefused (command : Command) :
              host.accept address header command offer context = .ok none := by
            rw [accept, h, if_pos rfl, ite_self]
          rw [hrefused]
          rfl
        · rfl

end Host

namespace LiveHost

open Host

variable {σ : Type} (env : Environment σ) {live after : LiveHost σ} {id : PeerId}
  {address : Address} {header : Header} {datagram : Bytes}

/-- The header of a datagram as the interceptor lets it through. -/
def header? (live : LiveHost σ) (address : Address) (datagram : Bytes) : Option Header :=
  (env.onReceive address datagram live.world).1.bind fun kept ↦ (Header.decode kept).toOption

theorem handleDatagram_lands (h : live.handleDatagram env address datagram = .ok after)
    (hsound : live.host.table.Sound) : after.host.table.Sound ∧ (after.host = live.host ∨
      ∃ header, live.header? env address datagram = some header ∧
        Lands live.host address header after.host) := by
  rcases handleDatagram_eq_ok env h with hsame |
    ⟨kept, header, content, now, hkept, hdecode, -, hhandle⟩
  · exact ⟨hsame ▸ hsound, .inl hsame⟩
  · obtain ⟨hafter, hlands⟩ := handleContent_lands hhandle hsound
    refine ⟨hafter, hlands.imp_right fun hlands ↦ ⟨header, ?_, hlands⟩⟩
    rw [header?, hkept, Option.bind_some, hdecode]
    rfl

/-- A datagram that names no slot does nothing if it comes from where a connection under its
challenge is known. -/
theorem handleDatagram_of_knows (halive : live.host.Alive)
    (hheader : live.header? env address datagram = some header)
    (hunassigned : header.isUnassigned = true)
    (hknows : live.host.Knows id address header.challenge) :
    ∃ world, live.handleDatagram env address datagram = .ok ⟨live.host, world⟩ := by
  have hconnection := halive.hasConnection hknows
  unfold header? at hheader
  unfold handleDatagram
  generalize env.onReceive address datagram live.world = received at hheader ⊢
  obtain ⟨kept, world⟩ := received
  cases kept with
  | none => cases hheader
  | some kept =>
    rw [Option.bind_some] at hheader
    cases hdecode : Header.decode kept with
    | error error =>
      rw [hdecode] at hheader
      cases hheader
    | ok found =>
      rw [hdecode] at hheader
      cases hheader
      dsimp only
      rw [handleKept, hdecode]
      dsimp only
      split
      · exact ⟨world, rfl⟩
      · rename_i content _
        have hnothing (length : Nat) (now : Stamp) :
            live.host.handleContent address header length content now = .ok live.host := by
          rw [handleContent, hunassigned, if_pos rfl,
            handleCommands_of_hasConnection hconnection]
        dsimp only [bind, Except.bind]
        rw [now_host, hnothing]
        exact ⟨_, rfl⟩

end LiveHost

/-- What has happened to a host that begins no connections: the datagrams that it has handled,
and its own work between them. -/
inductive History {σ : Type} (env : Environment σ) : List (Receipt σ) → Host → Prop where
  | start (capacity : Nat) (incoming outgoing : UInt32) (settings : Settings) :
      History env [] (.create capacity incoming outgoing settings)
  | idle {past : List (Receipt σ)} {host after : Host} (h : History env past host)
      (hidles : host.Idles after) : History env past after
  | receive {past : List (Receipt σ)} {live after : LiveHost σ} {address : Address}
      {datagram : Bytes} (h : History env past live.host)
      (hhandle : live.handleDatagram env address datagram = .ok after) :
      History env (past ++ [⟨live, address, datagram⟩]) after.host

open Host

variable {σ : Type} {env : Environment σ}

/-- What has happened to a host, and then what has happened since. -/
theorem History.trail {past later : List (Receipt σ)} {start host : Host}
    (h : History env past start) (htrail : Trail env start later host) :
    History env (past ++ later) host := by
  induction htrail with
  | start => rwa [List.append_nil]
  | work _ hrun ih => exact ih.idle hrun.idles
  | receive _ _ hhandle ih =>
    rw [← List.append_assoc]
    exact ih.receive hhandle

/-- What a run of a host that begins no connections comes to. -/
theorem Run.history {turns : List (Turn σ)} {live : LiveHost σ} (h : Run env turns live)
    (haccepts : ∀ turn ∈ turns, turn.operation.Accepts) :
    History env (turns.flatMap (·.receipts env)) live.host := by
  induction h with
  | start capacity incoming outgoing settings world => exact .start ..
  | @turn turns live after operation answer hrun hperform ih =>
    have hhistory := ih fun turn hturn ↦ haccepts turn (List.mem_append_left _ hturn)
    have hlast : operation.Accepts :=
      haccepts _ (List.mem_append_right _ (List.mem_singleton_self _))
    rw [List.flatMap_append, List.flatMap_singleton]
    by_cases hserves : ∃ timeout rounds, operation = .service timeout rounds
    · obtain ⟨timeout, rounds, rfl⟩ := hserves
      obtain ⟨last, htrail, hconcludes⟩ :=
        LiveHost.service_trail env (LiveHost.service_of_perform env hperform)
      exact (hhistory.trail htrail).idle hconcludes.idles
    · have hother (timeout : UInt32) (rounds : Nat) : operation ≠ .service timeout rounds :=
        fun heq ↦ hserves ⟨timeout, rounds, heq⟩
      rw [Turn.receipts_of_ne env hother, List.append_nil]
      exact hhistory.idle (LiveHost.perform_localRun env hperform hlast hother).idles

namespace History

variable {past : List (Receipt σ)} {host : Host}

theorem sound (h : History env past host) : host.table.Sound ∧ host.Alive := by
  induction h with
  | start capacity incoming outgoing settings =>
    refine ⟨SlotTable.sound_empty capacity settings, fun id peer hpeer ↦ ?_⟩
    rw [peer?_create] at hpeer
    cases hpeer
  | idle _ hidles ih => exact ⟨hidles.sound ih.1, hidles.remains.alive ih.2⟩
  | receive _ hhandle ih =>
    obtain ⟨hsound, hsame | ⟨header, -, hlands⟩⟩ := LiveHost.handleDatagram_lands env hhandle ih.1
    · rw [hsame]
      exact ih
    · exact ⟨hsound, hlands.alive ih.2⟩

/-- A datagram has found the host as it was after the datagrams before it. -/
theorem before {earlier later : List (Receipt σ)} {receipt : Receipt σ}
    (h : History env past host) (hpast : past = earlier ++ receipt :: later) :
    History env earlier receipt.before.host := by
  induction h generalizing later with
  | start => simp at hpast
  | idle _ _ ih => exact ih hpast
  | @receive past live after address datagram hhistory hhandle ih =>
    rcases List.eq_nil_or_concat later with rfl | ⟨between, last, rfl⟩
    · obtain ⟨rfl, heq⟩ := List.append_inj' hpast rfl
      cases heq
      exact hhistory
    · rw [List.concat_eq_append, ← List.cons_append, ← List.append_assoc] at hpast
      obtain ⟨heq, -⟩ := List.append_inj' hpast rfl
      exact ih heq

end History

end ReliableDatagram
