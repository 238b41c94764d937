import ReliableDatagram.Proofs.Connection.Traffic
import Mathlib.Data.List.Flatten

/-!
# Runs that can be computed

A run of a connection is given by its opening and a list of moves. A move names a datagram by
its place among those that the other end has composed. What such a run arrives at is computed,
and it is reachable.
-/

namespace ReliableDatagram

open Submission

inductive Move where
  | submit (channel : UInt8) (packet : Packet)
  | compose (now : Stamp) (check : Bool)
  | arrive (index : Nat) (context : Context)
  | receive (channel : UInt8)
deriving DecidableEq, Repr

namespace Peer

def handleAll? (header : Header) (context : Context) : List Command → Peer → Option Peer
  | [], peer => some peer
  | command :: rest, peer =>
    match peer.handle header command context with
    | .error _ => none
    | .ok (_, middle) => handleAll? header context rest middle

theorem handlesAll_of_eq_some {header : Header} {context : Context} {commands : List Command}
    {peer after : Peer} (h : handleAll? header context commands peer = some after) :
    HandlesAll header commands peer after := by
  induction commands generalizing peer with
  | nil =>
    cases h
    exact .nil
  | cons command rest ih =>
    rw [handleAll?] at h
    split at h
    · cases h
    · rename_i hhandle
      exact .cons hhandle (ih h)

end Peer

namespace End

/-- What becomes of an end by a move, when these datagrams can reach it; `none` if the move is
not possible. -/
def move? (incoming : List Bytes) (e : End) : Move → Option End
  | .submit channel packet =>
    match e.peer.send channel packet with
    | .error _ => none
    | .ok after => some (e.submit channel packet after)
  | .compose now check => some (e.compose now check)
  | .arrive index context =>
    match incoming[index]? with
    | none => none
    | some datagram =>
      match Datagram.decode datagram with
      | .error _ => none
      | .ok (header, commands) =>
        match e.peer.handleAll? header context commands with
        | none => none
        | some after => some { e with peer := after }
  | .receive channel => some (e.receive channel)

theorem step_of_move? {incoming : List Bytes} {e after : End} {move : Move}
    (h : e.move? incoming move = some after) (checksums : Bool) :
    Step checksums incoming e after := by
  cases move with
  | submit channel packet =>
    rw [move?] at h
    split at h
    · cases h
    · rename_i hsend
      cases h
      exact .submit hsend
  | compose now check =>
    cases h
    exact .compose
  | arrive index context =>
    rw [move?] at h
    split at h
    · cases h
    · rename_i datagram hdatagram
      split at h
      · cases h
      · rename_i header commands hdecode
        split at h
        · cases h
        · rename_i hhandles
          cases h
          exact .arrive (List.mem_of_getElem? hdatagram) ⟨datagram, .inl rfl, hdecode⟩
            (Peer.handlesAll_of_eq_some hhandles)
  | receive channel =>
    cases h
    exact .receive

/-- The bounds on numbers hold if few enough packets and commands were submitted at all. -/
theorem fits_of_submitted {e : End} (hstate : e.peer.state.isUnderWay = true)
    (hchannels : e.peer.channels.length ≤ 255) (hlength : e.submitted.length < 4294967296)
    (hcommands : (e.submitted.flatMap (·.commands)).length < 4294967296) : e.Fits := by
  have hsubset (lane : UInt8) : (e.log lane).Sublist e.submitted := List.filter_sublist
  refine ⟨hstate, hchannels, fun lane ↦ ?_, fun lane ↦ ?_⟩
  · rw [reliableBefore, List.take_length]
    exact Nat.lt_of_le_of_lt ((hsubset lane).flatMap _).length_le hcommands
  · rw [unreliableBefore, List.take_length]
    exact Nat.lt_of_le_of_lt (Nat.le_trans List.countP_le_length (hsubset lane).length_le) hlength

end End

namespace Connection

inductive Side where
  | near
  | far
deriving DecidableEq, Repr

/-- What becomes of a connection by a move. -/
def move? (connection : Connection) : Side × Move → Option Connection
  | (.near, move) => (connection.near.move? connection.far.composed move).map (⟨·, connection.far⟩)
  | (.far, move) => (connection.far.move? connection.near.composed move).map (⟨connection.near, ·⟩)

theorem Reachable.move? {connection after : Connection} {move : Side × Move}
    (h : Reachable connection) (hmove : connection.move? move = some after) : Reachable after := by
  obtain ⟨side, move⟩ := move
  cases side with
  | near =>
    obtain ⟨e, he, rfl⟩ := Option.map_eq_some_iff.mp hmove
    exact h.step (.near (End.step_of_move? he _))
  | far =>
    obtain ⟨e, he, rfl⟩ := Option.map_eq_some_iff.mp hmove
    exact h.step (.far (End.step_of_move? he _))

def moves? (connection : Connection) : List (Side × Move) → Option Connection
  | [] => some connection
  | move :: rest =>
    match connection.move? move with
    | none => none
    | some after => after.moves? rest

theorem Reachable.moves? {connection after : Connection} {moves : List (Side × Move)}
    (h : Reachable connection) (hmoves : connection.moves? moves = some after) :
    Reachable after := by
  induction moves generalizing connection with
  | nil =>
    cases hmoves
    exact h
  | cons move rest ih =>
    rw [Connection.moves?] at hmoves
    split at hmoves
    · cases hmoves
    · rename_i hmove
      exact ih (h.move? hmove) hmoves

/-- The opening of a connection between two vacant slots, everything at one moment. -/
def open? (asking granting : Peer) (address source : Address) (channelCount : Nat)
    (challenge : UInt32) (context : Context) : Option Connection :=
  match asking.connect address channelCount challenge context with
  | .error _ => none
  | .ok peer =>
    let near := End.compose { peer := peer } context.now false
    match near.composed with
    | [] => none
    | datagram :: _ =>
      match Datagram.decode datagram with
      | .error _ => none
      | .ok (header, commands) =>
        match commands with
        | [] => none
        | command :: _ =>
          match command.body with
          | .connect offer =>
            match granting.accept source header command offer context with
            | .error _ => none
            | .ok granted => some ⟨near, { peer := granted }⟩
          | _ => none

theorem opens_of_open? {asking granting : Peer} {address source : Address} {channelCount : Nat}
    {challenge : UInt32} {context : Context} {connection : Connection}
    (h : open? asking granting address source channelCount challenge context = some connection) :
    Opens connection := by
  unfold open? at h
  split at h
  · cases h
  · rename_i peer hconnect
    dsimp only at h
    split at h
    · cases h
    · rename_i datagram more hcomposed
      split at h
      · cases h
      · rename_i header commands hdecode
        split at h
        · cases h
        · rename_i command others
          split at h
          · rename_i offer hbody
            split at h
            · cases h
            · rename_i granted haccept
              cases h
              exact .intro hconnect (.single .compose) (hcomposed ▸ List.mem_cons_self)
                ⟨datagram, .inl rfl, hdecode⟩ List.mem_cons_self hbody haccept
          · cases h

/-! ## A small exchange -/

/-- A connection with one channel is opened, a reliable packet and a plain one are submitted,
and the datagram with both arrives twice; then come the `last` moves. -/
def exchange (last : List (Side × Move)) : Option Connection :=
  let slot : Peer := .vacant 0 {}
  let context : Context := ⟨1000, 0, 0⟩
  match open? slot slot ⟨"10.0.0.1", 4000⟩ ⟨"10.0.0.2", 4000⟩ 1 7 context with
  | none => none
  | some connection => connection.moves? ([
      (.far, .compose 1000 false),
      (.near, .arrive 0 context),
      (.near, .submit 0 ⟨[1, 2, 3], .reliable⟩),
      (.near, .submit 0 ⟨[4], .plain⟩),
      (.near, .compose 1000 false),
      (.far, .arrive 1 context),
      (.far, .arrive 1 context)] ++ last)

theorem reachable_of_exchange {last : List (Side × Move)} {connection : Connection}
    (h : exchange last = some connection) : Reachable connection := by
  unfold exchange at h
  dsimp only at h
  split at h
  · cases h
  · rename_i hopen
    exact (Reachable.asked (opens_of_open? hopen)).moves? h

end Connection

end ReliableDatagram
