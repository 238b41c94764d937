import ReliableDatagram.Host.Environment

/-!
# A simulated network

Surroundings whose state is a value: a clock that moves only when a host waits, and a
node for every host, with an address and an inbox of datagrams ordered by arrival. The
network treats every so many-th datagram badly: it loses, corrupts, delays or doubles it.
Calls of a node's socket can be made to fail, and its traffic to pass a filter.
-/

namespace ReliableDatagram.Simulation

/-- Whether the `k`-th of a sequence of datagrams is one of every `every`; 0 is never. -/
def isEvery (every k : Nat) : Bool := every != 0 && k % every == 0

/-- `bytes` with some bits of the byte at `index` flipped, if there is one. -/
def flipAt (bytes : Bytes) (index : Nat) (mask : UInt8) : Bytes := bytes.modify index (· ^^^ mask)

/-! ## Filters -/

structure DirectionRule where
  /-- Every so many-th datagram is dropped. -/
  dropEvery : Nat := 0
  flipIndex : Nat := 0
  flipMask : UInt8 := 0
  seen : Nat := 0
deriving DecidableEq, Repr, Inhabited

def DirectionRule.pass (rule : DirectionRule) (datagram : Bytes) : Option Bytes × DirectionRule :=
  let rule := { rule with seen := rule.seen + 1 }
  (if isEvery rule.dropEvery rule.seen then none
    else some (flipAt datagram rule.flipIndex rule.flipMask), rule)

/-- What stands between a node and the network. -/
inductive Filter where
  | transparent
  | lossy (link : LossyLink)
  /-- Rules for what is sent and what is received. -/
  | ruled (sending receiving : DirectionRule)

namespace Filter

def interceptor : Interceptor Filter where
  onSend address datagram
    | transparent => (some datagram, transparent)
    | lossy link =>
      let (kept, link) := LossyLink.interceptor.onSend address datagram link
      (kept, lossy link)
    | ruled sending receiving =>
      let (kept, sending) := sending.pass datagram
      (kept, ruled sending receiving)
  onReceive address datagram
    | transparent => (some datagram, transparent)
    | lossy link =>
      let (kept, link) := LossyLink.interceptor.onReceive address datagram link
      (kept, lossy link)
    | ruled sending receiving =>
      let (kept, receiving) := receiving.pass datagram
      (kept, ruled sending receiving)

end Filter

/-! ## The network -/

structure Rules where
  /-- Milliseconds that a datagram is on its way. -/
  latency : Nat := 0
  /-- Every so many-th datagram is lost. -/
  dropEvery : Nat := 0
  /-- Every so many-th datagram arrives twice. -/
  duplicateEvery : Nat := 0
  /-- Every so many-th datagram is late. -/
  delayEvery : Nat := 0
  /-- By so many milliseconds. -/
  delay : Nat := 0
  corruptEvery : Nat := 0
  corruptAt : Nat := 0
  corruptMask : UInt8 := 0
deriving DecidableEq, Repr, Inhabited

structure Post where
  arrival : Nat
  source : Address
  datagram : Bytes
deriving DecidableEq, Repr, Inhabited

inductive Call where
  | send
  | receive
  | wait
  | localAddress
deriving DecidableEq, Repr, Inhabited

structure Node where
  address : Address
  /-- What is on its way to the host, the first to arrive in front. -/
  inbox : List Post := []
  /-- The calls that are going to fail, oldest first. -/
  failures : List (Call × IoCause) := []
  filter : Filter := .transparent

instance : Inhabited Node := ⟨{ address := default }⟩

/-- Takes the first failure of a call. -/
def Node.takeFailure (node : Node) (call : Call) : Option IoFailure × Node :=
  match node.failures.find? (·.1 == call) with
  | none => (none, node)
  | some (_, cause) =>
    (some ⟨cause, none⟩, { node with failures := node.failures.eraseP (·.1 == call) })

/-- Puts a datagram behind those that arrive no later. -/
def Node.deliver (node : Node) (post : Post) : Node :=
  let isEarlier (other : Post) : Bool := other.arrival ≤ post.arrival
  { node with inbox := node.inbox.takeWhile isEarlier ++ post :: node.inbox.dropWhile isEarlier }

structure Dispatch where
  node : Nat
  target : Address
  datagram : Bytes
deriving DecidableEq, Repr, Inhabited

/-- The network, as the host at one of its nodes meets it. -/
structure Network where
  clock : Nat := 0
  rules : Rules := {}
  /-- How many datagrams were sent under these rules. -/
  count : Nat := 0
  nodes : Array Node
  /-- The node that is at work. -/
  self : Nat := 0
  /-- The datagrams that were sent, latest first. -/
  sent : List Dispatch := []
deriving Inhabited

namespace Network

/-- The node that is at work. -/
def here (network : Network) : Node := network.nodes.getD network.self default

def modify (network : Network) (index : Nat) (change : Node → Node) : Network :=
  { network with nodes := network.nodes.modify index change }

/-- Calls the socket, unless the call is to fail. -/
def call {α : Type} (network : Network) (call : Call) (run : Network → α × Network) :
    Except IoFailure α × Network :=
  match network.here.takeFailure call with
  | (some failure, node) => (.error failure, network.modify network.self fun _ ↦ node)
  | (none, _) =>
    let (result, network) := run network
    (.ok result, network)

/-- Sends a datagram to the first node with an address. -/
def send (target : Address) (datagram : Bytes) (network : Network) : Network :=
  let rules := network.rules
  let k := network.count + 1
  let entry : Dispatch := ⟨network.self, target, datagram⟩
  let network := { network with count := k, sent := entry :: network.sent }
  if isEvery rules.dropEvery k then network
  else
    let extra := if isEvery rules.delayEvery k then rules.delay else 0
    let post : Post := {
      arrival := network.clock + rules.latency + extra
      source := network.here.address
      datagram :=
        if isEvery rules.corruptEvery k then flipAt datagram rules.corruptAt rules.corruptMask
        else datagram }
    match network.nodes.findIdx? (·.address == target) with
    | none => network
    | some index =>
      network.modify index fun node ↦
        if isEvery rules.duplicateEvery k then (node.deliver post).deliver post
        else node.deliver post

/-- Takes the first datagram of the inbox if it has arrived. -/
def receive (network : Network) : Option (Bytes × Address) × Network :=
  match network.here.inbox with
  | [] => (none, network)
  | post :: rest =>
    if post.arrival ≤ network.clock then
      (some (post.datagram, post.source),
        network.modify network.self ({ · with inbox := rest }))
    else (none, network)

/-- Lets time pass until a datagram arrives, but not more than so many milliseconds. -/
def wait (timeout : UInt32) (network : Network) : Bool × Network :=
  let stop := network.clock + timeout.toNat
  match network.here.inbox.head? with
  | some post =>
    if post.arrival ≤ stop then (true, { network with clock := max network.clock post.arrival })
    else (false, { network with clock := stop })
  | none => (false, { network with clock := stop })

/-- Passes a datagram through the filter of the node that is at work. -/
def filtered (pass : Filter → Option Bytes × Filter) (network : Network) :
    Option Bytes × Network :=
  let (kept, filter) := pass network.here.filter
  (kept, network.modify network.self ({ · with filter := filter }))

/-- The network as the surroundings of the host whose node is at work. -/
def environment : Environment Network where
  onSend address datagram := filtered (Filter.interceptor.onSend address datagram)
  onReceive address datagram := filtered (Filter.interceptor.onReceive address datagram)
  elapsed network := (network.clock, network)
  send target datagram network :=
    network.call .send fun network ↦ ((), network.send target datagram)
  receive network := network.call .receive receive
  wait timeout network := network.call .wait (wait timeout)
  localAddress network := network.call .localAddress fun network ↦ (network.here.address, network)

end Network

end ReliableDatagram.Simulation
