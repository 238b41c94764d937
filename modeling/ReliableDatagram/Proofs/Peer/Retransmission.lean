import ReliableDatagram.Proofs.Peer.Repetitions

/-!
# How often a command goes out

Each reliable command in a datagram is paid for by what the command still may go out, and each
time it is queued adds the same allowance to that. Summed up over the course of what happens to
a peer, a command goes out no more often than it has been queued times that allowance.
-/

namespace ReliableDatagram

namespace Peer

variable {peer middle after : Peer} {now : Stamp} {check : Bool} {settings : Settings}
  {id : UInt16} {command : Command} {manifest : Manifest}

/-! ## Datagrams -/

/-- Of what goes out, only the reliable part asks for acknowledgements. -/
theorem Ships.count_commands (h : peer.Ships now check manifest after)
    (hrationed : Rationed settings peer) (hasks : command.requiresAcknowledgement = true) :
    manifest.commands.count command = (manifest.taken.map (·.command)).count command := by
  have hacknowledged : (manifest.acknowledged.map (·.toCommand)).count command = 0 := by
    refine List.count_eq_zero.mpr fun hmem ↦ ?_
    obtain ⟨acknowledgement, -, rfl⟩ := List.mem_map.mp hmem
    rw [requiresAcknowledgement_of_plain rfl] at hasks
    cases hasks
  have hpassed : (manifest.passed.map (·.command)).count command = 0 := by
    refine List.count_eq_zero.mpr fun hmem ↦ ?_
    obtain ⟨outgoing, houtgoing, rfl⟩ := List.mem_map.mp hmem
    have hwaiting : outgoing ∈ peer.unreliable := by
      rw [h.unreliable]
      exact List.mem_append_left _ (h.throttle.sublist.subset houtgoing)
    rw [hrationed.loose outgoing hwaiting] at hasks
    cases hasks
  rw [Manifest.commands, List.count_append, List.count_append, hacknowledged, hpassed,
    Nat.zero_add, Nat.add_zero]

/-- A ping is all that is outstanding afterwards. -/
theorem Ships.enlisted (h : peer.Ships now check manifest after) :
    peer.enlisted (.compose now check) after = manifest.pings.map (·.command) := by
  have hlength : after.outstanding.length = peer.outstanding.length + manifest.pings.length := by
    have hreliable := congrArg List.length h.reliable
    have hflight := h.flight_perm.length_eq
    simp only [outstanding, h.sent, List.length_map, List.length_append] at hreliable hflight ⊢
    omega
  rw [Peer.enlisted, show peer.clears (.compose now check) = false from rfl,
    if_neg Bool.false_ne_true]
  rcases h.pings with hnone | hping
  · rw [hnone, List.length_nil, Nat.add_zero] at hlength
    rw [hnone, ← hlength, List.drop_length, List.map_nil]
  · -- Nothing was outstanding, so that the ping is the only command.
    have hreliable := h.reliable
    have hflight := h.flight_perm
    have hwaiting := List.append_eq_nil_iff.mp hping.waiting
    rw [List.map_eq_nil_iff] at hwaiting
    rw [hwaiting.1, hping.awaited, List.append_nil] at hflight
    have hempty : peer.outstanding = [] := by
      rw [outstanding, hwaiting.2, hflight.symm.eq_nil]
      rfl
    rw [hping.waiting, List.nil_append, hping.pings, hping.taken] at hreliable
    have hleft : after.reliable = [] := by simpa using hreliable
    rw [hempty, List.length_nil, List.drop_zero, outstanding, h.sent, hping.awaited, hping.taken,
      hleft, hping.pings]
    simp [stamp_command]

/-! ## On the wire -/

def dispatched (peer : Peer) : Action → List Command
  | .compose now check => peer.carried (peer.compose now check).1
  | _ => []

/-- What goes out is paid for by what is left and what is queued. -/
theorem compose_reserve (hrationed : Rationed peer.settings peer)
    (hasks : command.requiresAcknowledgement = true) (now : Stamp) (check : Bool) :
    (peer.dispatched (.compose now check)).count command +
        (peer.compose now check).2.reserve peer.settings.allowance command ≤
      peer.reserve peer.settings.allowance command + (1 + peer.settings.allowance) *
        (peer.enlisted (.compose now check) (peer.compose now check).2).count command := by
  have hpaid {draft : Draft} {filled last : Peer}
      (hfill : peer.fill now check = (some draft, filled))
      (hlast : ∀ manifest, peer.Ships now check manifest filled →
        peer.Ships now check manifest last) :
      draft.commands.count command + last.reserve peer.settings.allowance command ≤
        peer.reserve peer.settings.allowance command + (1 + peer.settings.allowance) *
          (peer.enlisted (.compose now check) last).count command := by
    obtain ⟨manifest, hcommands, hfilled, hspared⟩ := fill_spares hfill
    have hships := hlast manifest hfilled
    rw [hcommands, hships.count_commands hrationed hasks, hships.enlisted]
    exact hships.reserve_le hspared hrationed command
  change (peer.carried (peer.compose now check).1).count command + _ ≤ _
  have hyields := peer.compose_yields now check
  generalize peer.compose now check = composed at hyields
  obtain ⟨result, last⟩ := composed
  dsimp only at hyields ⊢
  cases hyields with
  | idle =>
    rw [show peer.carried (.ok .nothing) = [] from rfl, List.count_nil, Nat.zero_add]
    exact Nat.le_add_right _ _
  | gaveUp _ hfill =>
    have hforgotten : last = peer.reset := (fill_eq_none hfill).1
    rw [hforgotten]
    exact Nat.zero_le _
  | nothing _ hfill hnone =>
    have hle := hpaid hfill fun _ hships ↦ hships
    rw [hnone] at hle
    exact hle
  | @failed _ filled meter traffic _ _ hfill =>
    have hle := hpaid hfill fun _ hships ↦ hships.noted meter traffic filled.lastSend
    exact Nat.le_trans (Nat.add_le_add_right (Nat.zero_le _) _) hle
  | @datagram _ filled meter traffic _ _ hfill _ hbytes =>
    rw [carried, contents_of_encodeDatagram (congrArg Terms.settings (terms_fill hfill)) hbytes]
    exact hpaid hfill fun _ hships ↦ hships.noted meter traffic now

/-! ## Whole runs -/

/-- In the course of what is asked of a peer and arrives, the command is queued so many times and
put on the wire so many times. What the host does on its own account leaves the queues as they
are; what else it may ask for is an action. -/
inductive Tallies (command : Command) : Peer → Nat → Nat → Peer → Prop where
  | refl (peer : Peer) : Tallies command peer 0 0 peer
  | act {peer middle after : Peer} {action : Action} {event : Option PeerEvent}
      {queued times : Nat} (hact : peer.act action = .ok (event, middle))
      (h : Tallies command middle queued times after) :
      Tallies command peer ((peer.enlisted action middle).count command + queued)
        ((peer.dispatched action).count command + times) after
  /-- The host keeps its accounts, and then the rest happens. -/
  | tend {peer middle after : Peer} {queued times : Nat} (hoperates : Operates peer middle)
      (hsent : middle.sent = peer.sent) (hreliable : middle.reliable = peer.reliable)
      (h : Tallies command middle queued times after) : Tallies command peer queued times after

variable {queued times : Nat}

theorem act_reserve {action : Action} {event : Option PeerEvent}
    (h : Reached id settings peer) (hasks : command.requiresAcknowledgement = true)
    (hact : peer.act action = .ok (event, after)) :
    (peer.dispatched action).count command + after.reserve settings.allowance command ≤
      peer.reserve settings.allowance command +
        (1 + settings.allowance) * (peer.enlisted action after).count command := by
  by_cases hcompose : ∃ now check, action = .compose now check
  · obtain ⟨now, check, rfl⟩ := hcompose
    cases hact
    have hrationed := h.rationed
    have hkeeps := h.keeps
    subst hkeeps
    exact compose_reserve hrationed hasks now check
  · obtain ⟨fresh, henrols, hcount⟩ := act_enrols (by simpa using hcompose) hact
    have hnone : peer.dispatched action = [] := by
      unfold dispatched
      split
      · exact absurd ⟨_, _, rfl⟩ hcompose
      · rfl
    have hreserve := henrols.reserve_le settings.allowance command
    have hqueued := Nat.mul_le_mul_left (1 + settings.allowance) (hcount command)
    rw [hnone, List.count_nil]
    omega

theorem Tallies.reserve_le (h : Tallies command peer queued times after)
    (hreached : Reached id settings peer) (hasks : command.requiresAcknowledgement = true) :
    Reached id settings after ∧ times + after.reserve settings.allowance command ≤
      peer.reserve settings.allowance command + (1 + settings.allowance) * queued := by
  induction h with
  | refl => exact ⟨hreached, by omega⟩
  | @act _ _ _ _ _ queued _ hact _ ih =>
    obtain ⟨hlast, hrest⟩ := ih (hreached.act hact)
    have hfirst := act_reserve hreached hasks hact
    refine ⟨hlast, ?_⟩
    rw [Nat.mul_add]
    omega
  | @tend _ middle _ _ _ hoperates hsent hreliable _ ih =>
    obtain ⟨hlast, hrest⟩ := ih (hreached.operate hoperates)
    unfold reserve at hrest ⊢
    rw [hsent, hreliable] at hrest
    exact ⟨hlast, hrest⟩

/-- Whatever has happened to a peer and happens to it from then on, a reliable command is put on
the wire, for each time that it is outstanding at first or is queued, at most once and then as
many times as a timeout can double on its way to the limit; and what is in flight has a timeout
of at least a millisecond. -/
theorem Reached.dispatched_le (h : Reached id settings peer)
    (hasks : command.requiresAcknowledgement = true)
    (htallies : Tallies command peer queued times after) :
    times ≤ (1 + Nat.clog 2 (max settings.timeoutLimit.toNat 1)) *
        (peer.outstanding.count command + queued) ∧
      ∀ outgoing ∈ after.sent, 1 ≤ outgoing.timeout := by
  obtain ⟨hafter, hpaid⟩ := htallies.reserve_le h hasks
  have hreserve := h.rationed.reserve_le command
  rw [Settings.allowance] at hpaid hreserve
  refine ⟨?_, fun outgoing hmem ↦ ?_⟩
  · rw [Nat.mul_add]
    omega
  · have hsent := hafter.rationed.sent outgoing hmem
    rw [UInt32.le_iff_toNat_le, show (1 : UInt32).toNat = 1 from rfl, Nat.one_le_iff_ne_zero]
    exact fun hzero ↦ hsent (UInt32.toNat_inj.mp hzero)

/-- What some actions queue and put on the wire of a command, and what they make of a peer. -/
def tally (command : Command) (peer : Peer) : List Action → Except Fault (Nat × Nat × Peer)
  | [] => .ok (0, 0, peer)
  | action :: rest => do
    let (_, middle) ← peer.act action
    let (queued, times, after) ← middle.tally command rest
    return ((peer.enlisted action middle).count command + queued,
      (peer.dispatched action).count command + times, after)

theorem tallies_of_tally {actions : List Action}
    (h : peer.tally command actions = .ok (queued, times, after)) :
    Tallies command peer queued times after := by
  induction actions generalizing peer queued times with
  | nil =>
    cases h
    exact .refl _
  | cons action rest ih =>
    rw [tally] at h
    cases hact : peer.act action with
    | error fault =>
      rw [hact] at h
      cases h
    | ok result =>
      cases hrest : result.2.tally command rest with
      | error fault =>
        simp only [hact, hrest, bind, Except.bind] at h
        cases h
      | ok counts =>
        simp only [hact, hrest, bind, Except.bind, pure, Except.pure, Except.ok.injEq] at h
        cases h
        exact .act hact (ih hrest)

/-- Settings under which a timeout may grow to four times its first value. -/
def patient : Settings := { timeoutLimit := 4 }

/-- A request for a connection that nobody answers. -/
def unanswered : List Action :=
  [.connect ⟨"10.0.0.1", 4000⟩ 1 7 ⟨1000, 0, 0⟩, .compose 1000 true, .compose 1500 true,
    .compose 2500 true]

def unansweredRequest : Command :=
  ⟨controlChannel, Command.acknowledgeFlag, 1,
    .connect ⟨0, 1400, 32768, 1, 0, 0, Settings.throttle {}⟩⟩

/-- The request is queued once and goes out three times, as often as it may; when it is overdue
the next time, the connection is given up. -/
theorem dispatched_le_unanswered : ∃ after,
    (vacant 0 patient).tally unansweredRequest unanswered = .ok (1, 3, after) ∧
      3 = 1 + Nat.clog 2 (max patient.timeoutLimit.toNat 1) ∧
      3 ≤ (1 + Nat.clog 2 (max patient.timeoutLimit.toNat 1)) *
        ((vacant 0 patient).outstanding.count unansweredRequest + 1) ∧
      after.sent ≠ [] ∧ (∀ outgoing ∈ after.sent, 1 ≤ outgoing.timeout) ∧
      (after.compose 4500 true).1.toOption = some .timedOut := by
  have hreplay : ((vacant 0 patient).tally unansweredRequest unanswered).toOption.any (fun result ↦
      result.1 == 1 && result.2.1 == 3 && !result.2.2.sent.isEmpty &&
        (result.2.2.compose 4500 true).1.toOption == some .timedOut) = true := by
    decide +kernel
  obtain ⟨⟨queued, times, after⟩, htally, hends⟩ := exists_of_any_toOption hreplay
  simp only [Bool.and_eq_true, beq_iff_eq, Bool.not_eq_true', List.isEmpty_eq_false_iff] at hends
  obtain ⟨⟨⟨rfl, rfl⟩, hsent⟩, hgivesUp⟩ := hends
  have hlog : 3 = 1 + Nat.clog 2 (max patient.timeoutLimit.toNat 1) :=
    congrArg (1 + ·) (Nat.clog_pow 2 2 (by decide)).symm
  obtain ⟨hle, htimeouts⟩ := Reached.dispatched_le (Reached.vacant : Reached 0 patient _)
    (rfl : unansweredRequest.requiresAcknowledgement = true) (tallies_of_tally htally)
  exact ⟨after, htally, hlog, hle, hsent, htimeouts, hgivesUp⟩

end Peer

end ReliableDatagram
