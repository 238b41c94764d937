import ReliableDatagram.Proofs.Host.Isolation
import ReliableDatagram.Proofs.Wire.Leading

/-!
# Reading and handling at once

A host does not read a datagram as a whole. It handles each command as soon as it has read it,
and stops at a malformed one. This comes to the same as reading first: the commands that it
handles, in order, are those that the datagram is read as, or those before the first malformed one
if it is not read. It stops before the last of them only after a command that has it free the slot
of the connection.
-/

namespace ReliableDatagram

namespace Host

variable {host after : Host} {id : PeerId} {header : Header} {context : Context}
  {commands : List Command}

/-! ## Commands that have been read -/

/-- Has a connection handle commands one after the other, as long as it goes on. -/
def execute (id : PeerId) (header : Header) (context : Context) :
    List Command → Host → Except Fault Host
  | [], host => .ok host
  | command :: rest, host => do
    let (goesOn, host) ← host.handleCommand id header command context
    if goesOn then execute id header context rest host else return host

/-- Commands are handled as they are read as if they had all been read before. -/
theorem handleCommands_eq_execute (address : Address) (count : Nat) (bytes : Bytes)
    (host : Host) : handleCommands header address context count (some id) bytes host =
      execute id header context (Datagram.leading count bytes) host := by
  induction count generalizing bytes host with
  | zero => rfl
  | succ count ih =>
    unfold handleCommands Datagram.leading
    split
    · rfl
    · cases Command.decode bytes with
      | error error => rfl
      | ok result =>
        obtain ⟨command, rest⟩ := result
        dsimp only
        rw [execute]
        congr 1
        funext outcome
        obtain ⟨goesOn, middle⟩ := outcome
        dsimp only
        rw [ih rest middle]

/-- Some commands are handled in order and others are skipped. None is skipped unless the last
command that is handled has had the slot of the connection freed, or has been a fault. -/
inductive Executes (id : PeerId) (header : Header) (context : Context) :
    List Command → List Command → Host → Except Fault Host → Prop where
  | finished (host : Host) : Executes id header context [] [] host (.ok host)
  | goesOn {command : Command} {executed skipped : List Command} {host middle : Host}
      {outcome : Except Fault Host}
      (hhandle : host.handleCommand id header command context = .ok (true, middle))
      (h : Executes id header context executed skipped middle outcome) :
      Executes id header context (command :: executed) skipped host outcome
  /-- The first command ends the connection. -/
  | released {command : Command} {skipped : List Command} {peer : Peer} {host after : Host}
      (hhandle : host.handleCommand id header command context = .ok (false, after))
      (hbefore : host.peer? id = some peer) (hafter : after.peer? id = none) :
      Executes id header context [command] skipped host (.ok after)
  | faulted {command : Command} {skipped : List Command} {host : Host} {fault : Fault}
      (hhandle : host.handleCommand id header command context = .error fault) :
      Executes id header context [command] skipped host (.error fault)

/-- A command that a connection goes on after leaves it in its slot, and any other command has the
slot freed. -/
theorem isSome_of_handleCommand {command : Command} {goesOn : Bool} {peer : Peer}
    (h : host.handleCommand id header command context = .ok (goesOn, after))
    (hpeer : host.peer? id = some peer) : (after.peer? id).isSome = goesOn := by
  cases handleCommand_outcome h with
  | absent hhost =>
    rw [hpeer] at hhost
    cases hhost
  | goesOn hhost => rw [peer?_setPeer_self hhost, Option.isSome_some]
  | connected hhost => exact congrArg Option.isSome (peer?_setPeer_self hhost)
  | ends hhost =>
    rw [peer?, table_reportDeparture]
    exact congrArg Option.isSome (peer?_release_self ..)

/-- The connection being there, all commands are handled, or those up to one that ends it. -/
theorem execute_executes {peer : Peer} (hpeer : host.peer? id = some peer) (header : Header)
    (context : Context) (commands : List Command) : ∃ executed skipped,
      commands = executed ++ skipped ∧
        Executes id header context executed skipped host
          (execute id header context commands host) := by
  induction commands generalizing host peer with
  | nil => exact ⟨[], [], rfl, .finished host⟩
  | cons command rest ih =>
    rw [execute]
    cases hhandle : host.handleCommand id header command context with
    | error fault => exact ⟨[command], rest, rfl, .faulted hhandle⟩
    | ok result =>
      obtain ⟨goesOn, middle⟩ := result
      have hslot := isSome_of_handleCommand hhandle hpeer
      cases goesOn with
      | false =>
        have hfreed : middle.peer? id = none :=
          Option.isNone_iff_eq_none.mp (Option.isSome_eq_false_iff.mp hslot)
        exact ⟨[command], rest, rfl, .released hhandle hpeer hfreed⟩
      | true =>
        obtain ⟨next, hnext⟩ := Option.isSome_iff_exists.mp hslot
        obtain ⟨executed, skipped, hrest, hexecutes⟩ := ih hnext
        exact ⟨command :: executed, skipped, by rw [hrest, List.cons_append],
          .goesOn hhandle hexecutes⟩

/-! ## Datagrams -/

/-- The content of a datagram that belongs to a connection is handled there. -/
theorem handleContent_of_belongs {address known : Address} {peer : Peer} (length : Nat)
    (content : Bytes) (now : Stamp) (hnamed : header.isUnassigned = false)
    (hbelongs : host.Belongs address header peer known) :
    host.handleContent address header length content now =
      handleCommands header address (host.context now) header.commandCount.toNat
        (some header.peer) (content.drop Header.size)
        (host.setPeer header.peer ((peer.relocate address).recordReceived length)) := by
  have hmatch : host.matchPeer header address length =
      some (header.peer, host.setPeer header.peer
        ((peer.relocate address).recordReceived length)) := by
    simp only [matchPeer, hbelongs.slot, hbelongs.active, hbelongs.challenge, hbelongs.address,
      hbelongs.network, bne_self_eq_false, Bool.not_true, Bool.or_self, Bool.false_eq_true,
      if_false, if_true]
  rw [handleContent, hnamed, if_neg Bool.false_ne_true, hmatch]
  rfl

/-- What is left of a datagram when its trailer is checked is read with the same header. -/
theorem decode_checkedContent {datagram content : Bytes}
    (hheader : Header.decode datagram = .ok header)
    (hchecked : host.checkedContent header datagram = some content)
    (hlong : Header.size ≤ content.length) : Header.decode content = .ok header := by
  obtain ⟨trailer, rfl⟩ : ∃ trailer, datagram = content ++ trailer := by
    unfold checkedContent at hchecked
    split at hchecked
    · split at hchecked
      · rename_i hstrip
        cases hchecked
        exact Checksum.eq_append_of_strip hstrip
      · cases hchecked
    · split at hchecked
      · cases hchecked
      · cases hchecked
        exact ⟨[], (List.append_nil _).symm⟩
  rwa [Header.decode_append hlong] at hheader

end Host

namespace LiveHost

open Host

variable {σ : Type} (env : Environment σ) {live : LiveHost σ} {address : Address}
  {datagram : Bytes}

/-- A datagram is let through, names a connection that it belongs to, and has its trailer in
order; and a header is left without the trailer. Then the host handles the commands that this
content is read as, in order, or those before the first malformed one if it is not read. It skips
commands only behind one that ends the connection and has its slot freed, or behind a fault, of
which there is none if the settings are in order. -/
theorem handleDatagram_executes {kept content : Bytes} {world : σ} {header : Header} {peer : Peer}
    {known : Address} {now : Stamp} {ticked : LiveHost σ}
    (hkept : env.onReceive address datagram live.world = (some kept, world))
    (hheader : Header.decode kept = .ok header) (hnamed : header.isUnassigned = false)
    (hbelongs : live.host.Belongs address header peer known)
    (hchecked : live.host.checkedContent header kept = some content)
    (hlong : Header.size ≤ content.length)
    (hclock : LiveHost.now env ⟨live.host, world⟩ = (now, ticked)) :
    ∃ executed skipped outcome, Datagram.Front content header (executed ++ skipped) ∧
      Executes header.peer header (live.host.context now) executed skipped
        (live.host.setPeer header.peer ((peer.relocate address).recordReceived kept.length))
        outcome ∧
      live.handleDatagram env address datagram =
        outcome.map (fun host ↦ { ticked with host := host }) ∧
      (live.host.Configured → ∃ after, live.handleDatagram env address datagram = .ok after) := by
  have hhost : ticked.host = live.host := by
    have hsame := now_host env ⟨live.host, world⟩
    rwa [hclock] at hsame
  have hhandled : live.handleDatagram env address datagram =
      (live.host.handleContent address header kept.length content now).map
        (fun host ↦ { ticked with host := host }) := by
    rw [handleDatagram, hkept]
    dsimp only
    rw [handleKept, hheader]
    dsimp only
    rw [hchecked]
    dsimp only
    rw [hclock]
    dsimp only
    rw [hhost]
    cases live.host.handleContent address header kept.length content now <;> rfl
  have hfront := Datagram.front_leading (decode_checkedContent hheader hchecked hlong)
  have hcounted (next : Peer) : (live.host.setPeer header.peer next).peer? header.peer =
      some next := peer?_setPeer_self hbelongs.slot
  obtain ⟨executed, skipped, hcommands, hexecutes⟩ :=
    execute_executes (hcounted ((peer.relocate address).recordReceived kept.length)) header
      (live.host.context now)
      (Datagram.leading header.commandCount.toNat (content.drop Header.size))
  rw [hcommands] at hfront
  rw [handleContent_of_belongs kept.length content now hnamed hbelongs] at hhandled
  refine ⟨executed, skipped, _, hfront, hexecutes, ?_, fun hsettings ↦ ?_⟩
  · rw [hhandled, handleCommands_eq_execute]
  · have hnext : (live.host.setPeer header.peer
        ((peer.relocate address).recordReceived kept.length)).Configured :=
      hsettings.setPeer hbelongs.slot rfl
    obtain ⟨host, hhost⟩ := hnext.exists_handleCommands header address (live.host.context now)
      header.commandCount.toNat header.peer (content.drop Header.size)
    rw [hhandled, hhost]
    exact ⟨_, rfl⟩

def withdrawal : Bytes :=
  Header.encode ⟨0, 0, 2, 6, 7⟩ ++
    Command.layout ⟨controlChannel, Command.unsequencedFlag, 1, .disconnect⟩ ++
    Command.layout ⟨controlChannel, Command.acknowledgeFlag, 2, .ping⟩

/-- The slot is freed, and the ping is not handled any more. -/
theorem handleDatagram_executes_withdrawal : ∃ live after : LiveHost Script,
    ∃ executed skipped outcome peer now,
      (⟨.create 2 0 0 {}, {}⟩ : LiveHost Script).handleDatagram Script.environment
        ⟨"10.0.0.9", 9⟩ Reported.request = .ok live ∧
      live.handleDatagram Script.environment ⟨"10.0.0.9", 9⟩ withdrawal = .ok after ∧
      (executed ++ skipped).map Command.tag = [.disconnect, .ping] ∧
      Executes 0 ⟨0, 0, 2, 6, 7⟩ (live.host.context now) executed skipped
        (live.host.setPeer 0 peer) outcome ∧
      after.host.peer? 0 = none := by
  let header : Header := ⟨0, 0, 2, 6, 7⟩
  have hrehearsed : ((⟨.create 2 0 0 {}, {}⟩ : LiveHost Script).handleDatagram
      Script.environment ⟨"10.0.0.9", 9⟩ Reported.request).toOption.any (fun live ↦
        (live.host.peer? 0).any (fun peer ↦ peer.state.isActive && peer.challenge == 7 &&
            peer.address == some ⟨"10.0.0.9", 9⟩) &&
          live.host.checkedContent header withdrawal == some withdrawal &&
          (live.handleDatagram Script.environment ⟨"10.0.0.9", 9⟩ withdrawal).toOption.any
            (fun after ↦ (after.host.peer? 0).isNone)) = true := by
    decide +kernel
  obtain ⟨live, hlive, hends⟩ := exists_of_any_toOption hrehearsed
  rw [Bool.and_eq_true, Bool.and_eq_true, beq_iff_eq] at hends
  obtain ⟨⟨hslot, hchecked⟩, hfreed⟩ := hends
  obtain ⟨peer, hpeer, hfacts⟩ := (Option.any_eq_true _ _).mp hslot
  simp only [Bool.and_eq_true, beq_iff_eq] at hfacts
  obtain ⟨⟨hactive, hchallenge⟩, haddress⟩ := hfacts
  obtain ⟨after, hafter, hvacant⟩ := exists_of_any_toOption hfreed
  have hbelongs : live.host.Belongs ⟨"10.0.0.9", 9⟩ header peer ⟨"10.0.0.9", 9⟩ :=
    ⟨hpeer, hactive, hchallenge, rfl, haddress⟩
  obtain ⟨executed, skipped, outcome, hfront, hexecutes, -⟩ :=
    handleDatagram_executes Script.environment
      (rfl : Script.environment.onReceive ⟨"10.0.0.9", 9⟩ withdrawal live.world =
        (some withdrawal, live.world))
      (rfl : Header.decode withdrawal = .ok header) rfl hbelongs hchecked (by decide) rfl
  have hread : Datagram.decode withdrawal = .ok (header,
      [⟨controlChannel, Command.unsequencedFlag, 1, .disconnect⟩,
        ⟨controlChannel, Command.acknowledgeFlag, 2, .ping⟩]) := rfl
  have hcommands : (executed ++ skipped).map Command.tag = [.disconnect, .ping] := by
    cases hfront with
    | whole hdecode =>
      rw [hread] at hdecode
      rw [← (Prod.mk.inj (Except.ok.inj hdecode)).2]
      rfl
    | broken hdecode =>
      rw [hread] at hdecode
      cases hdecode
  exact ⟨live, after, executed, skipped, outcome, _, _, hlive, hafter, hcommands, hexecutes,
    Option.isNone_iff_eq_none.mp hvacant⟩

end LiveHost

end ReliableDatagram
