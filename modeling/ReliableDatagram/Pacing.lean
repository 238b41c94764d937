import ReliableDatagram.Saturating
import ReliableDatagram.Settings
import ReliableDatagram.Stamp

/-!
# Pacing

Every acknowledgement yields a sample of the round trip time. A sample first moves
the throttle on unreliable traffic: faster than the reference of the last interval
opens it, more than twice as slow closes it. It then feeds an exponential filter
whose estimate and variance set the retransmission timeout. The throttle lets an
unreliable command pass while a counter, advanced by a fixed step per command
around the scale, is at most the throttle value.
-/

namespace ReliableDatagram

structure Pacing where
  /-- The estimated round trip time in milliseconds. -/
  roundTrip : UInt32
  /-- The estimated deviation of the round trip time. -/
  variance : UInt32
  /-- The reference round trip time of the last interval. -/
  lastRoundTrip : UInt32
  /-- The reference deviation of the last interval. -/
  lastVariance : UInt32
  /-- The lowest estimate of the running interval. -/
  lowestRoundTrip : UInt32
  /-- The highest deviation of the running interval. -/
  highestVariance : UInt32
  throttle : UInt32
  /-- How far it may open. -/
  limit : UInt32
  counter : UInt32
  /-- When the running interval began; 0 before the first sample. -/
  epoch : Stamp
  parameters : ThrottleParameters
  /-- The range of the admission counter. -/
  scale : UInt32
  /-- How far the admission counter advances per command. -/
  step : UInt32
deriving DecidableEq, Repr, Inhabited

namespace Pacing

def start (settings : Settings) : Pacing where
  roundTrip := settings.initialRoundTrip
  variance := 0
  lastRoundTrip := settings.initialRoundTrip
  lastVariance := 0
  lowestRoundTrip := settings.initialRoundTrip
  highestVariance := 0
  throttle := settings.initialThrottle
  limit := settings.throttleScale
  counter := 0
  epoch := 0
  parameters := settings.throttle
  scale := settings.throttleScale
  step := settings.throttleStep

/-! ## Round trips -/

/-- The estimate moves an eighth of the way to the sample, the deviation a quarter of
the way to the sample's own; both quotients round toward zero. -/
def observe (pacing : Pacing) (sample : UInt32) : Pacing :=
  let error : Int := sample.toNat - pacing.roundTrip.toNat
  let deviation : Int := pacing.variance.toNat
  { pacing with
    roundTrip := Word.ofIntSat (pacing.roundTrip.toNat + error.tdiv 8)
    variance := Word.ofIntSat (deviation + ((error.natAbs : Int) - deviation).tdiv 4) }

/-- A sample faster than the reference opens the throttle, one more than twice as slow
closes it; a reference that its deviation outweighs opens it fully. -/
def adjustThrottle (pacing : Pacing) (sample : UInt32) : Pacing :=
  if pacing.lastRoundTrip ≤ pacing.lastVariance then
    { pacing with throttle := pacing.limit }
  else if sample < pacing.lastRoundTrip then
    { pacing with
      throttle := min (pacing.throttle + pacing.parameters.acceleration) pacing.limit }
  else if 2 * pacing.lastRoundTrip.toNat < sample.toNat then
    { pacing with throttle := Word.subSat pacing.throttle pacing.parameters.deceleration }
  else
    pacing

/-- Keeps the extremes of the running interval and, when it is over, makes them the
reference of the next one. -/
def trackInterval (pacing : Pacing) (now : Stamp) : Pacing :=
  let lowest := min pacing.lowestRoundTrip pacing.roundTrip
  let highest := max pacing.highestVariance pacing.variance
  if pacing.epoch = 0 ∨ pacing.parameters.interval ≤ Stamp.distance now pacing.epoch then
    { pacing with
      lastRoundTrip := lowest
      lastVariance := highest
      lowestRoundTrip := pacing.roundTrip
      highestVariance := pacing.variance
      epoch := now }
  else
    { pacing with lowestRoundTrip := lowest, highestVariance := highest }

def recordRoundTrip (pacing : Pacing) (now : Stamp) (sample : UInt32) : Pacing :=
  ((pacing.adjustThrottle sample).observe sample).trackInterval now

theorem adjustThrottle_eq (pacing : Pacing) (sample : UInt32) :
    pacing.adjustThrottle sample =
      { pacing with throttle := (pacing.adjustThrottle sample).throttle } := by
  unfold adjustThrottle
  repeat' split
  all_goals rfl

theorem trackInterval_eq (pacing : Pacing) (now : Stamp) :
    ∃ lastRoundTrip lastVariance lowestRoundTrip highestVariance epoch,
      pacing.trackInterval now = { pacing with
        lastRoundTrip := lastRoundTrip
        lastVariance := lastVariance
        lowestRoundTrip := lowestRoundTrip
        highestVariance := highestVariance
        epoch := epoch } := by
  unfold trackInterval
  dsimp only
  split <;> exact ⟨_, _, _, _, _, rfl⟩

/-- What is taken in moves the throttle as the sample says and the estimate as the filters say;
the rest of it is the interval. -/
theorem recordRoundTrip_eq (pacing : Pacing) (now : Stamp) (sample : UInt32) :
    ∃ lastRoundTrip lastVariance lowestRoundTrip highestVariance epoch,
      pacing.recordRoundTrip now sample = { pacing with
        roundTrip := (pacing.observe sample).roundTrip
        variance := (pacing.observe sample).variance
        throttle := (pacing.adjustThrottle sample).throttle
        lastRoundTrip := lastRoundTrip
        lastVariance := lastVariance
        lowestRoundTrip := lowestRoundTrip
        highestVariance := highestVariance
        epoch := epoch } := by
  obtain ⟨_, _, _, _, _, htracked⟩ :=
    trackInterval_eq ((pacing.adjustThrottle sample).observe sample) now
  rw [recordRoundTrip, htracked, adjustThrottle_eq]
  exact ⟨_, _, _, _, _, rfl⟩

/-- How long to wait for an acknowledgement: the estimate and four deviations. -/
def retransmitTimeout (pacing : Pacing) : UInt32 :=
  Word.addSat pacing.roundTrip (Word.mulSat pacing.variance 4)

/-! ## The throttle -/

/-- Advances the admission counter by one command; the command may pass if the counter
is then at most the throttle. -/
def passUnreliable (pacing : Pacing) : Bool × Pacing :=
  let counter := (pacing.counter + pacing.step) % max pacing.scale 1
  (decide (counter ≤ pacing.throttle), { pacing with counter := counter })

def configure (pacing : Pacing) (parameters : ThrottleParameters) : Pacing :=
  { pacing with parameters := parameters }

/-- Sets how far the throttle may open, closing it that far if need be. -/
def setLimit (pacing : Pacing) (limit : UInt32) : Pacing :=
  { pacing with limit := limit, throttle := min pacing.throttle limit }

end Pacing

end ReliableDatagram
