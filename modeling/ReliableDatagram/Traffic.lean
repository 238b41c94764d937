import ReliableDatagram.Saturating
import ReliableDatagram.Settings
import ReliableDatagram.Stamp

/-!
# Traffic and loss

Counters of what went to and came from a peer, and a smoothed estimate of how much
is lost. Loss is sampled once per interval from the reliable commands sent and timed
out in it, in fixed point with the loss scale as the whole, and folded into an
exponential filter whose quotients round toward zero.
-/

namespace ReliableDatagram

/-- What went to and came from a peer. The counts have no bound. In 64 bits they would begin anew
after 2^64 bytes, which take more than fifty years at ten gigabytes a second, and every connection
counts from 0. -/
structure Traffic where
  datagramsSent : Nat := 0
  datagramsReceived : Nat := 0
  /-- Reliable commands that timed out. -/
  commandsLost : Nat := 0
  bytesSent : Nat := 0
  bytesReceived : Nat := 0
  /-- The estimated loss, in units of the loss scale. -/
  loss : UInt32 := 0
  /-- The estimated deviation of the loss. -/
  lossVariance : UInt32 := 0
deriving DecidableEq, Repr, Inhabited

namespace Traffic

/-- The estimated loss as a share of the whole. -/
def lossRate (traffic : Traffic) (settings : Settings) : Float32 :=
  traffic.loss.toFloat32 / (max settings.lossScale 1).toFloat32

def recordSent (traffic : Traffic) (length : Nat) : Traffic :=
  { traffic with
    datagramsSent := traffic.datagramsSent + 1
    bytesSent := traffic.bytesSent + length }

def recordReceived (traffic : Traffic) (length : Nat) : Traffic :=
  { traffic with
    datagramsReceived := traffic.datagramsReceived + 1
    bytesReceived := traffic.bytesReceived + length }

/-- Folds the loss of one interval into the estimate. -/
def foldLoss (traffic : Traffic) (sampled : Int) : Traffic :=
  let loss : Int := traffic.loss.toNat
  let variance : Int := traffic.lossVariance.toNat
  let difference := sampled - loss
  { traffic with
    loss := Word.ofIntSat (loss + difference.tdiv 8)
    lossVariance := Word.ofIntSat
      (variance - variance.tdiv 4 + (difference.natAbs : Int).tdiv 4) }

end Traffic

/-- The reliable commands sent and lost since the loss was last sampled. -/
structure LossMeter where
  /-- When the running interval began; 0 before the first update. -/
  epoch : Stamp := 0
  sent : UInt32 := 0
  lost : UInt32 := 0
deriving DecidableEq, Repr, Inhabited

namespace LossMeter

def recordSent (meter : LossMeter) : LossMeter := { meter with sent := meter.sent + 1 }

def recordLost (meter : LossMeter) : LossMeter := { meter with lost := meter.lost + 1 }

/-- The share of the commands sent that was lost, in units of the loss scale; commands
of an earlier interval may be among those lost, so the share is cut off at the whole. -/
def sample (meter : LossMeter) (scale : UInt32) : Int :=
  (((min meter.lost meter.sent).toNat * scale.toNat : Nat) : Int).tdiv meter.sent.toNat

/-- Ends the interval if it is over and anything was sent in it, and says whether it did. -/
def update (meter : LossMeter) (now : Stamp) (traffic : Traffic) (settings : Settings) :
    Bool × LossMeter × Traffic :=
  if meter.epoch = 0 then
    (false, { meter with epoch := now }, traffic)
  else if Stamp.distance now meter.epoch < settings.lossInterval ∨ meter.sent = 0 then
    (false, meter, traffic)
  else
    (true, { epoch := now }, traffic.foldLoss (meter.sample settings.lossScale))

end LossMeter

end ReliableDatagram
