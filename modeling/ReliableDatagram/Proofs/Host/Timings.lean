import ReliableDatagram.Proofs.Host.Receiving
import ReliableDatagram.Proofs.Host.Requests
import Mathlib.Logic.Relation

/-!
# What a host has to do with time

A host reads the clock of its surroundings, and waits for its socket. Surroundings that keep a
record of both tell afterwards which moments the host has seen and how long it was willing to
wait at each of them. Whatever a host does until it waits adds nothing but readings.
-/

namespace ReliableDatagram

/-- What a host has to do with time. -/
inductive Timing where
  /-- It reads on the clock how many milliseconds have passed since it was created. -/
  | read (milliseconds : Nat)
  /-- It waits up to so many milliseconds for the socket, and this is what comes of it. -/
  | wait (asked : UInt32) (outcome : Except IoFailure Bool)

structure Wait where
  moment : Nat
  /-- Up to how many milliseconds it was to last. -/
  asked : UInt32
  outcome : Except IoFailure Bool

namespace Timing

def readings : List Timing → List Nat
  | [] => []
  | .read now :: rest => now :: readings rest
  | .wait _ _ :: rest => readings rest

/-- The waits of a host that has seen a moment last. -/
def waitsFrom (moment : Nat) : List Timing → List Wait
  | [] => []
  | .read now :: rest => waitsFrom now rest
  | .wait asked outcome :: rest => ⟨moment, asked, outcome⟩ :: waitsFrom moment rest

def waits (timings : List Timing) : List Wait := waitsFrom 0 timings

def latest (timings : List Timing) : Nat := (readings timings).getLastD 0

variable (earlier later : List Timing) (moments : List Nat) (moment : Nat)

@[simp] theorem readings_append :
    readings (earlier ++ later) = readings earlier ++ readings later := by
  induction earlier with
  | nil => rfl
  | cons timing rest ih => cases timing <;> simp [readings, ih]

@[simp] theorem readings_map_read : readings (moments.map .read) = moments := by
  induction moments with
  | nil => rfl
  | cons now rest ih => simp [readings, ih]

theorem waitsFrom_append : waitsFrom moment (earlier ++ later) =
    waitsFrom moment earlier ++ waitsFrom ((readings earlier).getLastD moment) later := by
  induction earlier generalizing moment with
  | nil => rfl
  | cons timing rest ih =>
    cases timing with
    | read now =>
      rw [readings, List.getLastD_cons]
      exact ih now
    | wait asked outcome => exact congrArg (⟨moment, asked, outcome⟩ :: ·) (ih moment)

theorem waitsFrom_map_read : waitsFrom moment (moments.map .read) = [] := by
  induction moments generalizing moment with
  | nil => rfl
  | cons now rest ih => exact ih now

/-- Readings are no waits. -/
theorem waits_append_read : waits (earlier ++ moments.map .read) = waits earlier := by
  rw [waits, waitsFrom_append, waitsFrom_map_read, List.append_nil, waits]

/-- A wait comes at the moment that was read before it. -/
theorem waits_append_wait (asked : UInt32) (outcome : Except IoFailure Bool) :
    waits (earlier ++ [.read moment, .wait asked outcome]) =
      waits earlier ++ [⟨moment, asked, outcome⟩] := by
  rw [waits, waitsFrom_append]
  rfl

end Timing

namespace Environment

variable {σ : Type} {env : Environment σ}

/-- The surroundings keep a record of the readings of their clock and the waits for the socket. -/
structure Records (env : Environment σ) (record : σ → List Timing) : Prop where
  onSend : ∀ address datagram world,
    record (env.onSend address datagram world).2 = record world
  onReceive : ∀ address datagram world,
    record (env.onReceive address datagram world).2 = record world
  elapsed : ∀ world,
    record (env.elapsed world).2 = record world ++ [.read (env.elapsed world).1]
  send : ∀ address datagram world, record (env.send address datagram world).2 = record world
  receive : ∀ world, record (env.receive world).2 = record world
  wait : ∀ asked world,
    record (env.wait asked world).2 = record world ++ [.wait asked (env.wait asked world).1]

/-- Something is done with the surroundings other than to wait. -/
inductive Moves (env : Environment σ) (world : σ) : σ → Prop where
  | onSend (address : Address) (datagram : Bytes) :
      Moves env world (env.onSend address datagram world).2
  | onReceive (address : Address) (datagram : Bytes) :
      Moves env world (env.onReceive address datagram world).2
  | elapsed : Moves env world (env.elapsed world).2
  | send (address : Address) (datagram : Bytes) :
      Moves env world (env.send address datagram world).2
  | receive : Moves env world (env.receive world).2

/-- What has been done with the surroundings did not wait. -/
abbrev Goes (env : Environment σ) : σ → σ → Prop := Relation.ReflTransGen env.Moves

/-- Without waiting, only readings are recorded. -/
theorem Goes.recorded {record : σ → List Timing} {world after : σ} (h : env.Goes world after)
    (hrecords : env.Records record) :
    ∃ moments : List Nat, record after = record world ++ moments.map .read := by
  induction h with
  | refl => exact ⟨[], by simp⟩
  | @tail middle _ _ hmoves ih =>
    obtain ⟨moments, hmoments⟩ := ih
    cases hmoves with
    | onSend => exact ⟨moments, by rw [hrecords.onSend, hmoments]⟩
    | onReceive => exact ⟨moments, by rw [hrecords.onReceive, hmoments]⟩
    | elapsed =>
      refine ⟨moments ++ [(env.elapsed middle).1], ?_⟩
      rw [hrecords.elapsed, hmoments, List.map_append, List.append_assoc]
      rfl
    | send => exact ⟨moments, by rw [hrecords.send, hmoments]⟩
    | receive => exact ⟨moments, by rw [hrecords.receive, hmoments]⟩

end Environment

structure Recorded (σ : Type) where
  world : σ
  timings : List Timing := []

namespace Recorded

variable {σ : Type}

def go {α : Type} (recorded : Recorded σ) (result : α × σ) : α × Recorded σ :=
  (result.1, { recorded with world := result.2 })

def note {α : Type} (timing : α → Timing) (result : α × Recorded σ) : α × Recorded σ :=
  (result.1, { result.2 with timings := result.2.timings ++ [timing result.1] })

end Recorded

/-- The same surroundings, which keep a record now. -/
def Environment.recorded {σ : Type} (env : Environment σ) : Environment (Recorded σ) where
  onSend address datagram recorded := recorded.go (env.onSend address datagram recorded.world)
  onReceive address datagram recorded :=
    recorded.go (env.onReceive address datagram recorded.world)
  elapsed recorded := Recorded.note .read (recorded.go (env.elapsed recorded.world))
  send address datagram recorded := recorded.go (env.send address datagram recorded.world)
  receive recorded := recorded.go (env.receive recorded.world)
  wait asked recorded :=
    Recorded.note (.wait asked) (recorded.go (env.wait asked recorded.world))
  localAddress recorded := recorded.go (env.localAddress recorded.world)

theorem Environment.recorded_records {σ : Type} (env : Environment σ) :
    env.recorded.Records Recorded.timings where
  onSend _ _ _ := rfl
  onReceive _ _ _ := rfl
  elapsed _ := rfl
  send _ _ _ := rfl
  receive _ := rfl
  wait _ _ := rfl

namespace LiveHost

variable {σ : Type} (env : Environment σ) {live after : LiveHost σ}

/-! ## Sending -/

theorem now_goes (live : LiveHost σ) : env.Goes live.world (live.now env).2.world :=
  .single .elapsed

theorem transmit_goes (live : LiveHost σ) (address : Address) (datagram : Bytes) :
    env.Goes live.world (live.transmit env address datagram).world := by
  have hseen : env.Moves live.world (env.onSend address datagram live.world).2 := .onSend ..
  unfold transmit
  generalize env.onSend address datagram live.world = seen at hseen ⊢
  obtain ⟨kept, world⟩ := seen
  cases kept with
  | none => exact .single hseen
  | some kept =>
    have hsent : env.Moves world (env.send address kept world).2 := .send ..
    dsimp only
    generalize env.send address kept world = sent at hsent ⊢
    obtain ⟨result, last⟩ := sent
    cases result <;> exact .tail (.single hseen) hsent

theorem sendFrom_goes (now : Stamp) (check : Bool) (id : PeerId) (live : LiveHost σ) :
    env.Goes live.world (live.sendFrom env now check id).2.world := by
  have hends := live.sendFrom_ends env now check id
  generalize live.sendFrom env now check id = result at hends ⊢
  cases hends with
  | silent | kept | gaveUp => exact .refl
  | sent => exact transmit_goes env (live.mapHost _) _ _

theorem sendOutgoing_goes (check : Bool) (live : LiveHost σ) :
    env.Goes live.world (live.sendOutgoing env check).world :=
  sendOutgoing_induction env (fun live after ↦ env.Goes live.world after.world) (fun _ ↦ .refl)
    .trans (fun live ↦ live.now_goes env) (fun now ↦ sendFrom_goes env now check) live

/-! ## Receiving -/

theorem handleKept_goes {address : Address} {datagram : Bytes}
    (h : live.handleKept env address datagram = .ok after) : env.Goes live.world after.world := by
  unfold handleKept at h
  split at h
  · cases h
    exact .refl
  · rename_i header _
    split at h
    · cases h
      exact .refl
    · rename_i content _
      dsimp only [bind, Except.bind] at h
      split at h
      · cases h
      · cases h
        exact live.now_goes env

theorem handleDatagram_goes {address : Address} {datagram : Bytes}
    (h : live.handleDatagram env address datagram = .ok after) :
    env.Goes live.world after.world := by
  have hseen : env.Moves live.world (env.onReceive address datagram live.world).2 := .onReceive ..
  unfold handleDatagram at h
  generalize env.onReceive address datagram live.world = seen at hseen h
  obtain ⟨kept, world⟩ := seen
  cases kept with
  | none =>
    cases h
    exact .single hseen
  | some kept => exact .head hseen (handleKept_goes env h)

theorem receiveDatagrams_goes {count : Nat}
    (h : live.receiveDatagrams env count = .ok after) : env.Goes live.world after.world := by
  have hreceived {live : LiveHost σ} {result : Except IoFailure (Option (Bytes × Address))}
      {world : σ} (hreceive : env.receive live.world = (result, world)) :
      env.Goes live.world world := by
    have hmoves : env.Moves live.world (env.receive live.world).2 := .receive
    rw [hreceive] at hmoves
    exact .single hmoves
  replace h := receptionEnds_of_receiveDatagrams env h
  induction h with
  | enough => exact .refl
  | failed hreceive => exact hreceived hreceive
  | idle hreceive => exact hreceived hreceive
  | reported hreceive hhandle =>
    exact (hreceived hreceive).trans (handleDatagram_goes env hhandle)
  | passed hreceive hhandle _ _ ih =>
    exact ((hreceived hreceive).trans (handleDatagram_goes env hhandle)).trans ih

/-! ## The mailbox -/

theorem disconnect_goes {id : PeerId} (h : live.disconnect env id = .ok after) :
    env.Goes live.world after.world := by
  cases disconnectEnds_of_disconnect env h with
  | leaves => exact .refl
  | freed => exact sendOutgoing_goes env false (live.mapHost _)

theorem applyRequest_goes (live : LiveHost σ) (request : Request) :
    env.Goes live.world (live.applyRequest env request).world := by
  cases request with
  | send peer channel packet =>
    unfold applyRequest
    dsimp only
    split <;> exact .refl
  | broadcast channel packet => exact .refl
  | disconnect peer =>
    unfold applyRequest
    dsimp only
    split
    · rename_i hdisconnect
      exact disconnect_goes env hdisconnect
    · exact .refl

theorem applyRequests_goes (live : LiveHost σ) :
    env.Goes live.world (live.applyRequests env).world := by
  have hall (requests : List Request) (live : LiveHost σ) :
      env.Goes live.world (requests.foldl (applyRequest env) live).world := by
    induction requests generalizing live with
    | nil => exact .refl
    | cons request rest ih => exact (live.applyRequest_goes env request).trans (ih _)
  exact hall live.host.mailbox.requests (live.mapHost _)

end LiveHost

end ReliableDatagram
