import ReliableDatagram.Host.Exchange

/-!
# Serving

A host works only while it is being served. Serving carries out the requests that wait
in the mailbox, then sends and receives until there is an event to report or the given
time is over. Nothing bounds how often the socket can announce datagrams that come to
nothing, so the number of rounds is bounded by the caller.
-/

namespace ReliableDatagram

namespace LiveHost

variable {σ : Type} (env : Environment σ)

/-! ## Leaving -/

/-- Begins to leave a connection; one that does not stand is told and freed at once. -/
def disconnect (live : LiveHost σ) (id : PeerId) : Except TransportError (LiveHost σ) := do
  let peer ← live.host.peer id
  let (isFreed, peer) := peer.disconnect
  let live := live.mapHost (·.setPeer id peer)
  if isFreed then return (live.sendOutgoing env false).mapHost (·.release id) else return live

/-- Leaves a connection at once, telling the other end without waiting for an answer. -/
def disconnectNow (live : LiveHost σ) (id : PeerId) : Except TransportError (LiveHost σ) := do
  let peer ← live.host.peer id
  let (isTold, peer) := peer.disconnectNow
  let live := live.mapHost (·.setPeer id peer)
  let live := if isTold then live.sendOutgoing env false else live
  return live.mapHost (·.release id)

/-! ## Requests from elsewhere -/

/-- Carries out a request; one that fails is dropped. -/
def applyRequest (live : LiveHost σ) : Request → LiveHost σ
  | .send peer channel packet =>
    match live.host.send peer channel packet with
    | .ok host => { live with host := host }
    | .error _ => live
  | .broadcast channel packet => live.mapHost fun host ↦ (host.broadcast channel packet).2
  | .disconnect peer =>
    match live.disconnect env peer with
    | .ok live => live
    | .error _ => live

def applyRequests (live : LiveHost σ) : LiveHost σ :=
  let requests := live.host.mailbox.requests
  let live := live.mapHost fun host ↦
    { host with mailbox := { host.mailbox with requests := [] } }
  requests.foldl (applyRequest env) live

/-- Carries out all requests and sends what is to be sent, without looking for overdue
commands. -/
def flush (live : LiveHost σ) : LiveHost σ := (live.applyRequests env).sendOutgoing env false

/-! ## Serving -/

def popEvent (live : LiveHost σ) : Option Event × LiveHost σ :=
  let (event, host) := live.host.popEvent
  (event, { live with host := host })

def dispatch (live : LiveHost σ) : Option Event × LiveHost σ :=
  let (event, host) := live.host.dispatch
  (event, { live with host := host })

/-- Waits for the socket, but not beyond the deadline; `none` means that there is something
to receive. -/
def await (live : LiveHost σ) (deadline : Stamp) : Option Event × LiveHost σ :=
  let (now, live) := live.now env
  if Stamp.notBefore now deadline then (some .nothing, live)
  else
    match env.wait (Stamp.distance deadline now) live.world with
    | (.ok true, world) => (none, { live with world := world })
    | (.ok false, world) => (some .nothing, { live with world := world })
    | (.error failure, world) => (some (.failed failure.cause), { live with world := world })

/-- Sends, receives, and sends again, up to the first event; without one, waits. -/
def serviceRound (live : LiveHost σ) (deadline : Stamp) :
    Except Fault (Option Event × LiveHost σ) := do
  let (now, live) := live.now env
  let live := (live.mapHost (·.allocateBandwidth now)).sendOutgoing env true
  match live.popEvent with
  | (some event, live) => return (some event, live)
  | (none, live) =>
    let live ← live.receiveIncoming env
    match live.popEvent with
    | (some event, live) => return (some event, live)
    | (none, live) =>
      match (live.sendOutgoing env true).dispatch with
      | (some event, live) => return (some event, live)
      | (none, live) => return live.await env deadline

/-- Serves for at most so many rounds; `none` means that all of them have passed. -/
def serviceRounds (deadline : Stamp) :
    Nat → LiveHost σ → Except Fault (Option Event × LiveHost σ)
  | 0, live => .ok (none, live)
  | rounds + 1, live => do
    match ← live.serviceRound env deadline with
    | (some event, live) => return (some event, live)
    | (none, live) => serviceRounds deadline rounds live

/-- Serves until there is an event or `timeout` milliseconds are over, for at most so many
rounds. -/
def service (live : LiveHost σ) (timeout : UInt32) (rounds : Nat) :
    Except Fault (Option Event × LiveHost σ) :=
  match (live.applyRequests env).dispatch with
  | (some event, live) => .ok (some event, live)
  | (none, live) =>
    let (now, live) := live.now env
    live.serviceRounds env (now + timeout) rounds

end LiveHost

end ReliableDatagram
