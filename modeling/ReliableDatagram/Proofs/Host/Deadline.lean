import ReliableDatagram.Proofs.Host.Timings
import ReliableDatagram.Proofs.Host.Trails
import ReliableDatagram.Proofs.Host.Vacancy
import ReliableDatagram.Proofs.Stamp

/-!
# The deadline of serving

When nothing is to be reported at once, a host sets itself a deadline, and from then on it gives
up or waits for its socket depending on the way from the clock to the deadline. Stamps show that
way as long as it is shorter than a day. A longer way looks like one into the past: the host then
waits for what is left of a full turn of the stamps instead, and if that is less than a day
it takes the deadline for over.
-/

namespace ReliableDatagram

namespace Stamp

/-- For how long a host waits when so many milliseconds are left. -/
def patience (left : Nat) : Nat := if left < 86400000 then left else 4294967296 - left

theorem patience_of_lt {left : Nat} (h : left < 86400000) : patience left = left := if_pos h

variable {start elapsed : Nat} {timeout : UInt32}

/-- The moment that a deadline stands for. -/
theorem ofElapsed_add (start : Nat) (timeout : UInt32) :
    ofElapsed start + timeout = .ofNat (start + 1 + timeout.toNat) := by
  rw [UInt32.ofNat_add, UInt32.ofNat_toNat, ofElapsed]

/-- Less than a day after it was set, a deadline is taken for over if it is, and if all of a turn
but less than a day is left. -/
theorem notBefore_deadline (h : elapsed < 86400000) :
    notBefore (ofElapsed (start + elapsed)) (ofElapsed start + timeout) = true ↔
      timeout.toNat ≤ elapsed ∨ elapsed + 4208567296 < timeout.toNat := by
  have hlt := timeout.toNat_lt
  rw [ofElapsed_add, ofElapsed, notBefore_ofNat_iff (by omega) (by omega)]
  omega

theorem toNat_distance_deadline
    (hdue : ¬ (timeout.toNat ≤ elapsed ∨ elapsed + 4208567296 < timeout.toNat)) :
    (distance (ofElapsed start + timeout) (ofElapsed (start + elapsed))).toNat =
      patience (timeout.toNat - elapsed) := by
  have hlt := timeout.toNat_lt
  have hleft : start + 1 + timeout.toNat - (start + elapsed + 1) = timeout.toNat - elapsed := by
    omega
  rw [ofElapsed_add, ofElapsed, toNat_distance_ofNat_of_le (by omega) (by omega), hleft, patience]

end Stamp

namespace Timing

/-- The clock does not go back, and less than a day passes. -/
structure Steady (timings : List Timing) : Prop where
  ordered : (readings timings).Pairwise (· ≤ ·)
  brief : ∀ early ∈ readings timings, ∀ late ∈ readings timings, late < early + 86400000

/-- What a host that has set itself a deadline at `start` does until it is done: it waits as
patiently as so much time left makes it, and if it says that nothing has happened, then because
the socket has nothing for it, or because it takes the deadline for over. -/
structure Meets (start timeout : Nat) (event : Option Event) (timings : List Timing) : Prop where
  waits : ∀ wait ∈ waits timings, ∃ elapsed, wait.moment = start + elapsed ∧ elapsed < timeout ∧
    wait.asked.toNat = Stamp.patience (timeout - elapsed)
  ends : event = some .nothing → (∃ wait ∈ Timing.waits timings, wait.outcome = .ok false) ∨
    ∃ elapsed, latest timings = start + elapsed ∧
      (timeout ≤ elapsed ∨ elapsed + 4208567296 < timeout)

variable {start : Nat} {timeout : Nat} {event : Option Event} {timings more : List Timing}

/-- A deadline less than a day away is kept: no wait goes beyond it, and it is not taken for over
before it is. -/
theorem Meets.of_lt_day (h : Meets start timeout event timings) (hday : timeout < 86400000) :
    (∀ wait ∈ Timing.waits timings, ∃ elapsed, wait.moment = start + elapsed ∧
      elapsed + wait.asked.toNat = timeout) ∧
    (event = some .nothing → (∃ wait ∈ Timing.waits timings, wait.outcome = .ok false) ∨
      start + timeout ≤ latest timings) := by
  constructor
  · intro wait hwait
    obtain ⟨elapsed, hmoment, hleft, hasked⟩ := h.waits wait hwait
    rw [Stamp.patience_of_lt (by omega)] at hasked
    exact ⟨elapsed, hmoment, by omega⟩
  · intro hevent
    refine (h.ends hevent).imp_right fun ⟨elapsed, hlatest, hover⟩ ↦ ?_
    omega

theorem Steady.of_append (h : Steady (timings ++ more)) : Steady timings where
  ordered := by
    have hordered := h.ordered
    rw [readings_append, List.pairwise_append] at hordered
    exact hordered.1
  brief early hearly late hlate := by
    refine h.brief early ?_ late ?_ <;>
    · rw [readings_append]
      exact List.mem_append_left _ ‹_›

/-- How much time has passed at the next reading. -/
theorem Steady.exists_elapsed {now : Nat} (h : Steady (timings ++ .read now :: more))
    (hstart : start ∈ readings timings) :
    ∃ elapsed, now = start + elapsed ∧ elapsed < 86400000 := by
  have hnow : now ∈ readings (.read now :: more) := List.mem_cons_self
  have hordered := h.ordered
  rw [readings_append, List.pairwise_append] at hordered
  have hle := hordered.2.2 start hstart now hnow
  have hlt := h.brief start (by simp [hstart]) now (by simp [readings])
  exact ⟨now - start, by omega, by omega⟩

/-- The deadline is set, and if the clock has been steady since the host began to serve, what it
has done is as it is to be. -/
structure Proceeds (start timeout : Nat) (event : Option Event) (timings : List Timing) :
    Prop where
  started : start ∈ readings timings
  meets : Steady timings → Meets start timeout event timings

/-- So far nothing but readings. -/
theorem Proceeds.of_readings {moments : List Nat} (hstart : start ∈ moments) :
    Proceeds start timeout none (moments.map .read) where
  started := by
    rw [readings_map_read]
    exact hstart
  meets _ := {
    waits := by simp [waits, waitsFrom_map_read]
    ends := nofun }

theorem Proceeds.read (h : Proceeds start timeout none timings) (moments : List Nat) :
    Proceeds start timeout none (timings ++ moments.map .read) where
  started := by
    rw [readings_append]
    exact List.mem_append_left _ h.started
  meets hsteady := {
    waits := by
      rw [waits_append_read]
      exact (h.meets hsteady.of_append).waits
    ends := nofun }

/-- An event that has happened ends the serving. -/
theorem Proceeds.found (h : Proceeds start timeout none timings) (hevent : event ≠ some .nothing) :
    Proceeds start timeout event timings where
  started := h.started
  meets hsteady := {
    waits := (h.meets hsteady).waits
    ends heq := absurd heq hevent }

/-- Looking at the clock, the host finds the deadline over. -/
theorem Proceeds.over {timeout : UInt32} (h : Proceeds start timeout.toNat none timings) {now : Nat}
    (hover : Stamp.notBefore (.ofElapsed now) (.ofElapsed start + timeout) = true) :
    Proceeds start timeout.toNat (some .nothing) (timings ++ [.read now]) where
  started := (h.read [now]).started
  meets hsteady := {
    waits := ((h.read [now]).meets hsteady).waits
    ends _ := by
      obtain ⟨elapsed, rfl, hday⟩ := hsteady.exists_elapsed h.started
      refine .inr ⟨elapsed, ?_, (Stamp.notBefore_deadline hday).mp hover⟩
      simp [latest, readings] }

/-- Looking at the clock, the host finds time left, and waits. -/
theorem Proceeds.wait {timeout : UInt32} (h : Proceeds start timeout.toNat none timings)
    {now : Nat} (hleft : Stamp.notBefore (.ofElapsed now) (.ofElapsed start + timeout) = false)
    {outcome : Except IoFailure Bool} (hevent : event = some .nothing → outcome = .ok false) :
    Proceeds start timeout.toNat event (timings ++ [.read now,
      .wait (Stamp.distance (.ofElapsed start + timeout) (.ofElapsed now)) outcome]) where
  started := by
    rw [readings_append]
    exact List.mem_append_left _ h.started
  meets hsteady := by
    obtain ⟨elapsed, rfl, hday⟩ := hsteady.exists_elapsed h.started
    have hdue := mt (Stamp.notBefore_deadline hday).mpr (Bool.eq_false_iff.mp hleft)
    have hpatience := @Stamp.toNat_distance_deadline start elapsed timeout hdue
    generalize Stamp.distance _ _ = asked at hsteady hpatience ⊢
    have hwaits := waits_append_wait timings (start + elapsed) asked outcome
    constructor
    · intro wait hwait
      rw [hwaits, List.mem_append, List.mem_singleton] at hwait
      rcases hwait with hold | rfl
      · exact (h.meets hsteady.of_append).waits wait hold
      · exact ⟨elapsed, rfl, by omega, hpatience⟩
    · intro hnothing
      rw [hwaits]
      exact .inl ⟨_, List.mem_append_right _ List.mem_cons_self, hevent hnothing⟩

end Timing

/-! ## What is never left to be reported -/

/-- The slots that are listed as vacant are so, and it does not wait to be reported that nothing
has happened. -/
structure Host.Regular (host : Host) : Prop where
  sound : host.table.Sound
  pending : .nothing ∉ host.pending

namespace Host

variable {host after : Host} {event : Option Event}

theorem Regular.localRun (h : host.Regular) (hrun : host.LocalRun after) : after.Regular where
  sound := hrun.sound h.sound
  pending := mt (hrun.mem_pending (by decide) (by decide)).mp h.pending

theorem Regular.of_announces (hsound : host.table.Sound) (h : host.Announces) :
    host.Regular where
  sound := hsound
  pending := by
    cases h with
    | nothing hpending | failed hpending | departed hpending | connected hpending =>
      rw [hpending]
      simp

theorem Regular.popEvent {event : Event} (h : host.Regular)
    (hpop : host.popEvent = (some event, after)) : after.Regular ∧ event ≠ .nothing := by
  obtain ⟨hpending, htable⟩ := popEvent_eq_some hpop
  have hnone := h.pending
  rw [hpending, List.mem_cons, not_or] at hnone
  exact ⟨⟨htable ▸ h.sound, hnone.2⟩, Ne.symm hnone.1⟩

theorem Regular.dispatch (h : host.Regular) :
    host.dispatch.2.Regular ∧ host.dispatch.1 ≠ some .nothing := by
  unfold Host.dispatch
  cases hpop : host.popEvent with
  | mk found next =>
    cases found with
    | some event =>
      obtain ⟨hregular, hevent⟩ := h.popEvent hpop
      exact ⟨hregular, fun heq ↦ hevent (Option.some.inj heq)⟩
    | none =>
      obtain ⟨-, rfl⟩ := popEvent_eq_none hpop
      obtain ⟨hrun, hfinds⟩ := dispatchFrom_localRun next.searchOrder next
      refine ⟨h.localRun hrun, fun heq ↦ ?_⟩
      dsimp only at heq
      rw [heq] at hfinds
      cases hfinds

end Host

namespace LiveHost

open Host Timing

variable {σ : Type} {env : Environment σ} {live after : LiveHost σ} {event : Option Event}
  {deadline : Stamp} {record : σ → List Timing}

/-! ## Rounds -/

theorem opening_goes (env : Environment σ) (live : LiveHost σ) :
    env.Goes live.world (live.opening env).world := by
  have hsent := sendOutgoing_goes env true
    ((live.now env).2.mapHost (·.allocateBandwidth (live.now env).1))
  exact (live.now_goes env).trans hsent

/-- How a round passes, as far as time is concerned. -/
inductive RoundPasses (env : Environment σ) (live : LiveHost σ) (deadline : Stamp) :
    Option Event → LiveHost σ → Prop where
  /-- An event has come before the host would wait. -/
  | found {event : Event} {after : LiveHost σ} (hevent : event ≠ .nothing)
      (hgoes : env.Goes live.world after.world) : RoundPasses env live deadline (some event) after
  /-- None has, and the host looks at the clock. -/
  | awaited {event : Option Event} {last after : LiveHost σ}
      (hgoes : env.Goes live.world last.world) (hawait : last.await env deadline = (event, after)) :
      RoundPasses env live deadline event after

/-- Searching does not find that nothing has happened. -/
theorem dispatch_regular (h : live.dispatch = (event, after)) (hregular : live.host.Regular) :
    after.host.Regular ∧ event ≠ some .nothing ∧ after.world = live.world := by
  have hdispatched := hregular.dispatch
  have hworld : live.world = after.world := congrArg (·.2.world) h
  rw [dispatch_host h] at hdispatched
  exact ⟨hdispatched.1, hdispatched.2, hworld.symm⟩

theorem serviceRound_passes (h : live.serviceRound env deadline = .ok (event, after))
    (hregular : live.host.Regular) :
    after.host.Regular ∧ RoundPasses env live deadline event after := by
  have hopening := hregular.localRun (live.opening_localRun env)
  have hopens := live.opening_goes env
  have hpopped {middle after : LiveHost σ} {event : Event} (hmiddle : middle.host.Regular)
      (hgoes : env.Goes live.world middle.world) (hpop : middle.popEvent = (some event, after)) :
      after.host.Regular ∧ RoundPasses env live deadline (some event) after := by
    obtain ⟨hafter, hevent⟩ := hmiddle.popEvent (popEvent_eq_some hpop)
    have hworld : middle.world = after.world := congrArg (·.2.world) hpop
    exact ⟨hafter, .found hevent (hworld ▸ hgoes)⟩
  have hreceived {middle : LiveHost σ} (hquiet : (live.opening env).host.pending = [])
      (hreceive : (live.opening env).receiveIncoming env = .ok middle) :
      middle.host.Regular ∧ env.Goes live.world middle.world := by
    have hreceives := receiveIncoming_receives env hreceive hquiet hopening.sound
    exact ⟨.of_announces hreceives.sound hreceives.announces,
      hopens.trans (receiveDatagrams_goes env hreceive)⟩
  have hanswered {middle last : LiveHost σ} {found : Option Event}
      (hmiddle : middle.host.Regular ∧ env.Goes live.world middle.world)
      (hdispatch : (middle.sendOutgoing env true).dispatch = (found, last)) :
      last.host.Regular ∧ found ≠ some .nothing ∧ env.Goes live.world last.world := by
    have hsent := hmiddle.2.trans (sendOutgoing_goes env true middle)
    obtain ⟨hlast, hfound, hworld⟩ :=
      dispatch_regular hdispatch (hmiddle.1.localRun (sendOutgoing_localRun env true middle))
    exact ⟨hlast, hfound, hworld ▸ hsent⟩
  cases roundEnds_of_serviceRound env h with
  | opened hpop => exact hpopped hopening hopens hpop
  | received hquiet hreceive hpop =>
    obtain ⟨hmiddle, hgoes⟩ := hreceived hquiet hreceive
    exact hpopped hmiddle hgoes hpop
  | answered hquiet hreceive _ hdispatch =>
    obtain ⟨hafter, hevent, hgoes⟩ := hanswered (hreceived hquiet hreceive) hdispatch
    exact ⟨hafter, .found (fun heq ↦ hevent (congrArg some heq)) hgoes⟩
  | @awaited _ _ last _ hquiet hreceive _ hdispatch hawait =>
    obtain ⟨hlast, -, hgoes⟩ := hanswered (hreceived hquiet hreceive) hdispatch
    have hhost := last.await_host env deadline
    rw [hawait] at hhost
    exact ⟨hhost ▸ hlast, .awaited hgoes hawait⟩

/-- Looking at the clock before waiting. -/
theorem await_timings (hrecords : env.Records record) {last : LiveHost σ}
    (h : last.await env deadline = (event, after)) :
    ∃ now, Stamp.notBefore (.ofElapsed now) deadline = true ∧ event = some .nothing ∧
        record after.world = record last.world ++ [.read now] ∨
      Stamp.notBefore (.ofElapsed now) deadline = false ∧ ∃ outcome,
        record after.world = record last.world ++
          [.read now, .wait (Stamp.distance deadline (.ofElapsed now)) outcome] ∧
        (event = some .nothing → outcome = .ok false) := by
  have hread := hrecords.elapsed last.world
  refine ⟨(env.elapsed last.world).1, ?_⟩
  unfold await now at h
  dsimp only at h
  split at h
  · rename_i hover
    cases h
    exact .inl ⟨hover, rfl, hread⟩
  · rename_i hleft
    refine .inr ⟨Bool.eq_false_iff.mpr hleft, ?_⟩
    have hwaited := hrecords.wait
      (Stamp.distance deadline (.ofElapsed (env.elapsed last.world).1)) (env.elapsed last.world).2
    rw [hread, List.append_assoc] at hwaited
    generalize env.wait _ (env.elapsed last.world).2 = waited at h hwaited
    obtain ⟨outcome, world⟩ := waited
    refine ⟨outcome, ?_, ?_⟩
    · split at h <;> cases h <;> simp_all
    · split at h <;> cases h <;> simp_all

/-- What one round adds to the record. -/
theorem RoundPasses.proceeds {start : Nat} {timeout : UInt32} {before past : List Timing}
    (h : RoundPasses env live (.ofElapsed start + timeout) event after)
    (hrecords : env.Records record) (hrecord : record live.world = before ++ past)
    (hpast : Proceeds start timeout.toNat none past) :
    ∃ timings, record after.world = before ++ timings ∧
      Proceeds start timeout.toNat event timings := by
  cases h with
  | found hevent hgoes =>
    obtain ⟨moments, hmoments⟩ := hgoes.recorded hrecords
    refine ⟨past ++ moments.map .read, ?_, (hpast.read moments).found ?_⟩
    · rw [hmoments, hrecord, List.append_assoc]
    · exact fun heq ↦ hevent (Option.some.inj heq)
  | awaited hgoes hawait =>
    obtain ⟨moments, hmoments⟩ := hgoes.recorded hrecords
    have hread := hpast.read moments
    rw [hrecord, List.append_assoc] at hmoments
    obtain ⟨now, ⟨hover, rfl, hadded⟩ | ⟨hleft, outcome, hadded, hevent⟩⟩ :=
      await_timings hrecords hawait
    · exact ⟨_, by rw [hadded, hmoments, List.append_assoc], hread.over hover⟩
    · exact ⟨_, by rw [hadded, hmoments, List.append_assoc], hread.wait hleft hevent⟩

/-- What every round keeps is kept until serving ends. -/
theorem serviceRounds_induction (kept : Option Event → LiveHost σ → Prop) {rounds : Nat}
    (h : live.serviceRounds env deadline rounds = .ok (event, after)) (hstart : kept none live)
    (hround : ∀ {live after : LiveHost σ} {event : Option Event}, kept none live →
      live.serviceRound env deadline = .ok (event, after) → kept event after) :
    kept event after := by
  replace h := roundsEnd_of_serviceRounds env h
  induction h with
  | spent => exact hstart
  | found hfirst => exact hround hstart hfirst
  | passed hfirst _ ih => exact ih (hround hstart hfirst)

/-! ## Serving -/

/-- What the clock says when the host sets itself a deadline. -/
def outset (env : Environment σ) (live : LiveHost σ) : Nat :=
  (env.elapsed (live.applyRequests env).world).1

theorem service_regular {timeout : UInt32} {rounds : Nat}
    (h : live.service env timeout rounds = .ok (event, after)) (hregular : live.host.Regular) :
    after.host.Regular := by
  have hstart := hregular.localRun (live.applyRequests_localRun env)
  cases serviceEnds_of_service env h with
  | dispatched hdispatch => exact (dispatch_regular hdispatch hstart).1
  | served hdispatch hrounds =>
    exact serviceRounds_induction (fun _ live ↦ live.host.Regular) hrounds
      (dispatch_regular hdispatch hstart).1 fun hlive hround ↦ (serviceRound_passes hround hlive).1

/-- What serving does with its time. -/
theorem service_meets {timeout : UInt32} {rounds : Nat}
    (h : live.service env timeout rounds = .ok (event, after)) (hregular : live.host.Regular)
    (hrecords : env.Records record) :
    ∃ timings, record after.world = record live.world ++ timings ∧
      (Steady timings → Meets (live.outset env) timeout.toNat event timings) := by
  obtain ⟨moments, hmoments⟩ := (live.applyRequests_goes env).recorded hrecords
  have hstart := hregular.localRun (live.applyRequests_localRun env)
  cases serviceEnds_of_service env h with
  | dispatched hdispatch =>
    obtain ⟨-, hevent, hworld⟩ := dispatch_regular hdispatch hstart
    refine ⟨moments.map .read, by rw [hworld, hmoments], fun _ ↦ ⟨?_, fun heq ↦ ?_⟩⟩
    · simp [waits, waitsFrom_map_read]
    · exact absurd heq hevent
  | @served _ middle _ hdispatch hrounds =>
    obtain ⟨hmiddle, -, hworld⟩ := dispatch_regular hdispatch hstart
    have hset : record (middle.now env).2.world =
        record live.world ++ (moments ++ [live.outset env]).map .read := by
      have hread := hrecords.elapsed (live.applyRequests env).world
      rw [hmoments, List.append_assoc, ← hworld] at hread
      rw [List.map_append, outset, ← hworld]
      exact hread
    have hnow : (middle.now env).1 = .ofElapsed (live.outset env) := by
      rw [outset, ← hworld]
      rfl
    rw [hnow] at hrounds
    have hproceeds := serviceRounds_induction (fun event live' ↦ live'.host.Regular ∧
      ∃ timings, record live'.world = record live.world ++ timings ∧
        Proceeds (live.outset env) timeout.toNat event timings) hrounds
      ⟨hmiddle, _, hset, .of_readings (by simp)⟩ ?_
    · obtain ⟨-, timings, htimings, hdone⟩ := hproceeds
      exact ⟨timings, htimings, hdone.meets⟩
    · rintro live' after' event' ⟨hlive, past, hrecord, hpast⟩ hround
      obtain ⟨hafter, hpasses⟩ := serviceRound_passes hround hlive
      exact ⟨hafter, hpasses.proceeds hrecords hrecord hpast⟩

end LiveHost

namespace Run

open Timing

variable {σ : Type} {env : Environment σ} {turns : List (Turn σ)} {live after : LiveHost σ}
  {event : Option Event}

/-- It never waits to be reported that nothing has happened. -/
theorem regular (h : Run env turns live) : live.host.Regular := by
  refine ⟨h.sound.1, ?_⟩
  induction h with
  | start => exact List.not_mem_nil
  | @turn turns live after operation answer hrun hperform ih =>
    have hlive : live.host.Regular := ⟨hrun.sound.1, ih⟩
    cases operation with
    | service timeout rounds =>
      exact (LiveHost.service_regular (LiveHost.service_of_perform env hperform) hlive).pending
    | connect address channelCount challenge =>
      obtain ⟨-, hsame⟩ | ⟨id, -, hconnect⟩ := LiveHost.connect_of_perform env hperform
      · rwa [hsame]
      · obtain ⟨error, heq, -⟩ | ⟨_, _, _, _, _, _, -, -, -, hafter⟩ :=
          LiveHost.connect_eq_ok env hconnect
        · cases heq
        · rwa [hafter]
    | change id alter =>
      obtain ⟨-, hchanged | rfl⟩ := LiveHost.settleHost_eq (Except.ok.inj hperform)
      · obtain ⟨peer, -, heq⟩ := Host.updatePeer_eq_ok hchanged
        rwa [heq]
      · exact ih
    | _ =>
      have hrun := LiveHost.perform_localRun env hperform trivial fun _ _ heq ↦ by cases heq
      exact (hlive.localRun hrun).pending

/-- While the clock is steady, serving waits for no longer than its deadline is away and gives up
when it is over, except that a day or more that is left is taken for the rest of a turn, and
more than all but a day of a turn for nothing. -/
theorem meets_deadline {record : σ → List Timing} (h : Run env turns live)
    (hrecords : env.Records record) {timeout : UInt32} {rounds : Nat}
    (hservice : live.service env timeout rounds = .ok (event, after)) :
    ∃ timings, record after.world = record live.world ++ timings ∧
      (Steady timings → Meets (live.outset env) timeout.toNat event timings) :=
  LiveHost.service_meets hservice h.regular hrecords

/-- A host without connections that is served once, a second after it was created, with nothing
arriving. -/
def idle (timeout : UInt32) : Except Fault (Option Event × LiveHost (Recorded Script)) :=
  let live : LiveHost (Recorded Script) := ⟨.create 1 0 0 {}, { world := { elapsed := 1000 } }⟩
  live.service Script.environment.recorded timeout 1

/-- An hour is waited for as such. Instead of a day, the host waits for the rest of the turn, and
instead of a whole turn it does not wait at all. -/
theorem meets_deadline_idle :
    (∃ after, idle 3600000 = .ok (some .nothing, after) ∧
      Meets 1000 3600000 (some .nothing) after.world.timings ∧
      (waits after.world.timings).map (·.asked) = [3600000]) ∧
    (∃ after, idle 86400000 = .ok (some .nothing, after) ∧
      Meets 1000 86400000 (some .nothing) after.world.timings ∧
      (waits after.world.timings).map (·.asked) = [4208567296]) ∧
    ∃ after, idle 4294967295 = .ok (some .nothing, after) ∧
      Meets 1000 4294967295 (some .nothing) after.world.timings ∧
      (waits after.world.timings).map (·.asked) = [] := by
  have hmeets {timeout : UInt32} {asked : List UInt32}
      (hidle : (idle timeout).toOption.any fun (event, live) ↦ event = some .nothing &&
        readings live.world.timings = [1000, 1000, 1000, 1000, 1000] &&
        (waits live.world.timings).map (·.asked) = asked) :
      ∃ after, idle timeout = .ok (some .nothing, after) ∧
        Meets 1000 timeout.toNat (some .nothing) after.world.timings ∧
        (waits after.world.timings).map (·.asked) = asked := by
    obtain ⟨⟨event, after⟩, hserve, hend⟩ := exists_of_any_toOption hidle
    simp only [Bool.and_eq_true, decide_eq_true_eq] at hend
    obtain ⟨⟨rfl, hreadings⟩, hasked⟩ := hend
    obtain ⟨timings, hrecord, hsteady⟩ :=
      (Run.start 1 0 0 {} _).meets_deadline Script.environment.recorded_records hserve
    rw [List.nil_append] at hrecord
    subst hrecord
    refine ⟨after, hserve, hsteady ⟨?_, ?_⟩, hasked⟩ <;>
    · rw [hreadings]
      decide
  refine ⟨hmeets ?_, hmeets ?_, hmeets ?_⟩ <;> decide +kernel

end Run

end ReliableDatagram
