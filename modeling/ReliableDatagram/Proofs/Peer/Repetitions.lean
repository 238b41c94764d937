import ReliableDatagram.Proofs.Peer.Contents
import ReliableDatagram.Proofs.Peer.Enrolment
import Mathlib.Data.Nat.Log

/-!
# How often a command may still go out

A reliable command that is overdue goes out again with twice its timeout, until the timeout has
reached a limit that was set when the command first went out: the first timeout, whatever the
round trip estimate was then, times a factor of the settings. A doubling that stops at the
greatest word reaches the limit too. So a command has a number of repetitions left, which its
timeout and its limit tell, and each repetition takes one of them. Summed up over the queues,
what is left pays for every command that goes out, and only queueing adds to it.
-/

namespace ReliableDatagram

/-- How often a command that has gone out once may go out again. -/
def Settings.allowance (settings : Settings) : Nat :=
  Nat.clog 2 (max settings.timeoutLimit.toNat 1)

/-! ## Repetitions -/

namespace Outgoing

/-- How often the command may go out again, apart from the time for which it waits. -/
def reprieves (allowance : Nat) (outgoing : Outgoing) : Nat :=
  if outgoing.timeout = 0 then allowance
  else Nat.clog 2
    ((outgoing.timeoutLimit.toNat + outgoing.timeout.toNat - 1) / outgoing.timeout.toNat)

variable {outgoing : Outgoing}

theorem reprieves_unsent (allowance : Nat) (command : Command) :
    ({ command := command } : Outgoing).reprieves allowance = allowance := if_pos rfl

/-- So many doublings bring the timeout to its limit. -/
theorem reprieves_le_iff (h : outgoing.timeout ≠ 0) (allowance count : Nat) :
    outgoing.reprieves allowance ≤ count ↔
      outgoing.timeoutLimit.toNat ≤ outgoing.timeout.toNat * 2 ^ count := by
  have hpositive : 0 < outgoing.timeout.toNat := by
    rw [Nat.pos_iff_ne_zero]
    exact fun hzero ↦ h (UInt32.toNat_inj.mp hzero)
  rw [reprieves, if_neg h, Nat.clog_le_iff_le_pow (by decide),
    Nat.div_le_iff_le_mul_add_pred hpositive]
  omega

theorem backedOff_timeout (outgoing : Outgoing) : outgoing.backedOff.timeout.toNat =
    min (outgoing.timeout.toNat * 2) Word.maximum := by
  rw [backedOff, Word.mulSat, Word.toNat_ofNatSat]
  rfl

theorem backedOff_timeout_ne_zero (h : outgoing.timeout ≠ 0) : outgoing.backedOff.timeout ≠ 0 := by
  intro hzero
  have hdoubled := outgoing.backedOff_timeout
  rw [hzero, Word.maximum, UInt32.toNat_zero] at hdoubled
  exact h (UInt32.toNat_inj.mp (by rw [UInt32.toNat_zero]; omega))

/-- As long as the limit is not reached, doubling the timeout takes one repetition. -/
theorem reprieves_backedOff (h : outgoing.timeout ≠ 0) (hspared : outgoing.isExhausted = false)
    (allowance : Nat) :
    outgoing.backedOff.reprieves allowance + 1 ≤ outgoing.reprieves allowance := by
  rw [isExhausted, decide_eq_false_iff_not, UInt32.not_le, UInt32.lt_iff_toNat_lt] at hspared
  have hleft := (reprieves_le_iff h allowance _).mp (Nat.le_refl (outgoing.reprieves allowance))
  cases hcount : outgoing.reprieves allowance with
  | zero =>
    rw [hcount] at hleft
    omega
  | succ count =>
    rw [hcount, Nat.pow_succ'] at hleft
    apply Nat.succ_le_succ
    rw [reprieves_le_iff (backedOff_timeout_ne_zero h), backedOff_timeout]
    change outgoing.timeoutLimit.toNat ≤ _
    have hword := outgoing.timeoutLimit.toNat_lt
    rcases Nat.le_total (outgoing.timeout.toNat * 2) Word.maximum with hle | hle
    · rw [Nat.min_eq_left hle, Nat.mul_assoc]
      exact hleft
    · rw [Nat.min_eq_right hle]
      exact Nat.le_trans (Nat.le_of_lt_succ hword) (Nat.le_mul_of_pos_right _ (Nat.two_pow_pos _))

end Outgoing

namespace Peer

variable {peer middle after : Peer} {now : Stamp} {check : Bool} {settings : Settings}
  {id : UInt16} {command : Command}

theorem stamp_timeout_ne_zero (peer : Peer) (outgoing : Outgoing) (now : Stamp) :
    (peer.stamp outgoing now).timeout ≠ 0 := by
  have hpunctual := peer.stamp_isOverdue outgoing now
  intro hzero
  rw [Outgoing.isOverdue, hzero, stamp_sentTime, Stamp.distance_self] at hpunctual
  cases hpunctual

/-- Going out takes no more than the one time for which a command waits. -/
theorem reprieves_stamp (peer : Peer) (outgoing : Outgoing) (now : Stamp) :
    (peer.stamp outgoing now).reprieves peer.settings.allowance ≤
      outgoing.reprieves peer.settings.allowance := by
  have hsent := peer.stamp_timeout_ne_zero outgoing now
  by_cases hfirst : outgoing.timeout = 0
  · rw [Outgoing.reprieves_le_iff hsent, Outgoing.reprieves, if_pos hfirst]
    rw [stamp, if_pos hfirst]
    dsimp only
    rw [Word.mulSat, Word.toNat_ofNatSat]
    have hpower := Nat.le_pow_clog (by decide : 1 < 2) (max peer.settings.timeoutLimit.toNat 1)
    exact Nat.le_trans (Nat.min_le_left _ _)
      (Nat.mul_le_mul_left _ (Nat.le_trans (Nat.le_max_left _ _) hpower))
  · rw [stamp, if_neg hfirst]
    exact Nat.le_refl _

/-! ## Summing up -/

/-- The weights of all entries of a queue that carry the command. -/
def weigh (weight : Outgoing → Nat) (command : Command) (queue : List Outgoing) : Nat :=
  (queue.map fun outgoing ↦ if outgoing.command = command then weight outgoing else 0).sum

variable {weight : Outgoing → Nat}

@[simp] theorem weigh_append (first rest : List Outgoing) :
    weigh weight command (first ++ rest) =
      weigh weight command first + weigh weight command rest := by
  rw [weigh, List.map_append, List.sum_append, weigh, weigh]

theorem weigh_cons (outgoing : Outgoing) (rest : List Outgoing) :
    weigh weight command (outgoing :: rest) =
      (if outgoing.command = command then weight outgoing else 0) + weigh weight command rest := by
  rw [weigh, List.map_cons, List.sum_cons, weigh]

theorem weigh_perm {first rest : List Outgoing} (h : first.Perm rest) :
    weigh weight command first = weigh weight command rest := (h.map _).sum_nat

theorem weigh_sublist {first rest : List Outgoing} (h : first.Sublist rest) :
    weigh weight command first ≤ weigh weight command rest := by
  induction h with
  | slnil => exact Nat.le_refl _
  | cons outgoing _ ih =>
    rw [weigh_cons]
    exact Nat.le_trans ih (Nat.le_add_left _ _)
  | cons_cons outgoing _ ih =>
    rw [weigh_cons, weigh_cons]
    exact Nat.add_le_add_left ih _

/-- What each entry loses or gains in weight when it is turned into another. -/
theorem weigh_map_le {turned : Outgoing → Outgoing} {other : Outgoing → Nat}
    (queue : List Outgoing) (hsame : ∀ outgoing, (turned outgoing).command = outgoing.command)
    (hle : ∀ outgoing ∈ queue, other (turned outgoing) ≤ weight outgoing) :
    weigh other command (queue.map turned) ≤ weigh weight command queue := by
  induction queue with
  | nil => exact Nat.le_refl 0
  | cons outgoing rest ih =>
    obtain ⟨hfirst, hrest⟩ := List.forall_mem_cons.mp hle
    rw [List.map_cons, weigh_cons, weigh_cons, hsame]
    have hothers := ih hrest
    split <;> omega

theorem weigh_le (bound : Nat) (queue : List Outgoing)
    (h : ∀ outgoing ∈ queue, weight outgoing ≤ bound) :
    weigh weight command queue ≤ bound * (queue.map (·.command)).count command := by
  induction queue with
  | nil => exact Nat.zero_le _
  | cons outgoing rest ih =>
    obtain ⟨hfirst, hrest⟩ := List.forall_mem_cons.mp h
    have hothers := ih hrest
    rw [weigh_cons, List.map_cons, List.count_cons, Nat.mul_add]
    simp only [beq_iff_eq]
    split <;> omega

/-- An entry that waits may go out once more than one that is in flight. -/
def dues (allowance : Nat) (outgoing : Outgoing) : Nat := 1 + outgoing.reprieves allowance

theorem weigh_dues (allowance : Nat) (queue : List Outgoing) :
    weigh (dues allowance) command queue = (queue.map (·.command)).count command +
      weigh (·.reprieves allowance) command queue := by
  induction queue with
  | nil => rfl
  | cons outgoing rest ih =>
    rw [weigh_cons, weigh_cons, ih, List.map_cons, List.count_cons, dues]
    simp only [beq_iff_eq]
    split <;> omega

theorem weigh_waiting (allowance : Nat) (fresh : List Command) :
    weigh (dues allowance) command (waiting fresh) = (1 + allowance) * fresh.count command := by
  induction fresh with
  | nil => rfl
  | cons first rest ih =>
    rw [waiting, List.map_cons, weigh_cons, dues, Outgoing.reprieves_unsent, List.count_cons,
      Nat.mul_add, ← ih, waiting]
    simp only [beq_iff_eq]
    split <;> omega

/-- How often a command may still go out. -/
def reserve (peer : Peer) (allowance : Nat) (command : Command) : Nat :=
  weigh (·.reprieves allowance) command peer.sent + weigh (dues allowance) command peer.reliable

/-! ## What is kept about the queues -/

/-- What is in flight has a timeout, no command has more repetitions left than the settings allow,
and no command waits among the unreliable ones that asks for an acknowledgement. -/
structure Rationed (settings : Settings) (peer : Peer) : Prop where
  sent : ∀ outgoing ∈ peer.sent, outgoing.timeout ≠ 0
  spare : ∀ outgoing ∈ peer.sent ++ peer.reliable,
    outgoing.reprieves settings.allowance ≤ settings.allowance
  loose : ∀ outgoing ∈ peer.unreliable, outgoing.command.requiresAcknowledgement = false

theorem Rationed.of_nil (hsent : peer.sent = []) (hreliable : peer.reliable = [])
    (hunreliable : peer.unreliable = []) : Rationed settings peer where
  sent := by simp [hsent]
  spare := by simp [hsent, hreliable]
  loose := by simp [hunreliable]

theorem Rationed.reserve_le (h : Rationed settings peer) (command : Command) :
    peer.reserve settings.allowance command ≤
      (1 + settings.allowance) * peer.outstanding.count command := by
  have hsent : weigh (·.reprieves settings.allowance) command peer.sent ≤
      (1 + settings.allowance) * (peer.sent.map (·.command)).count command :=
    weigh_le _ _ fun outgoing hmem ↦
      Nat.le_add_left_of_le (h.spare outgoing (List.mem_append_left _ hmem))
  have hreliable : weigh (dues settings.allowance) command peer.reliable ≤
      (1 + settings.allowance) * (peer.reliable.map (·.command)).count command :=
    weigh_le _ _ fun outgoing hmem ↦
      Nat.add_le_add_left (h.spare outgoing (List.mem_append_right _ hmem)) 1
  rw [reserve, outstanding, List.map_append, List.count_append, Nat.mul_add]
  exact Nat.add_le_add hsent hreliable

/-! ## Steps that send nothing -/

theorem Enrols.rationed {fresh : List Command} (h : Enrols peer fresh after)
    (hrationed : Rationed settings peer) : Rationed settings after where
  sent outgoing hmem := hrationed.sent outgoing (h.sent.subset hmem)
  spare outgoing hmem := by
    rcases List.mem_append.mp hmem with hmem | hmem
    · exact hrationed.spare outgoing (List.mem_append_left _ (h.sent.subset hmem))
    · rcases List.mem_append.mp (h.reliable.subset hmem) with hmem | hmem
      · exact hrationed.spare outgoing (List.mem_append_right _ hmem)
      · obtain ⟨command, -, rfl⟩ := List.mem_map.mp hmem
        exact Nat.le_of_eq (Outgoing.reprieves_unsent _ command)
  loose outgoing hmem :=
    (h.unreliable outgoing hmem).elim (hrationed.loose outgoing) fun hloose ↦ hloose

/-- Only fresh commands add to what is left. -/
theorem Enrols.reserve_le {fresh : List Command} (h : Enrols peer fresh after) (allowance : Nat)
    (command : Command) : after.reserve allowance command ≤
      peer.reserve allowance command + (1 + allowance) * fresh.count command := by
  have hsent : weigh (·.reprieves allowance) command after.sent ≤
      weigh (·.reprieves allowance) command peer.sent := weigh_sublist h.sent
  have hreliable : weigh (dues allowance) command after.reliable ≤
      weigh (dues allowance) command (peer.reliable ++ waiting fresh) := weigh_sublist h.reliable
  rw [weigh_append, weigh_waiting] at hreliable
  rw [reserve, reserve]
  omega

/-! ## Datagrams -/

variable {manifest : Manifest}

/-- A ping has not gone out before. -/
theorem Ships.pings_unsent (h : peer.Ships now check manifest after) :
    ∃ fresh, manifest.pings = waiting fresh := by
  rcases h.pings with hnone | hping
  · exact ⟨[], hnone⟩
  · exact ⟨[peer.keepalive.command], hping.pings⟩

/-- What goes out has waited, is overdue or is a ping. -/
theorem Ships.spare_taken (h : peer.Ships now check manifest after)
    (hspared : ∀ outgoing ∈ manifest.overdue, outgoing.isExhausted = false)
    (hrationed : Rationed settings peer) : ∀ outgoing ∈ manifest.taken ++ after.reliable,
      outgoing.reprieves settings.allowance ≤ settings.allowance := by
  obtain ⟨fresh, hpings⟩ := h.pings_unsent
  rw [← h.reliable, hpings]
  intro outgoing hmem
  rcases List.mem_append.mp hmem with hmem | hmem
  · rcases List.mem_append.mp hmem with hmem | hmem
    · obtain ⟨late, hlate, rfl⟩ := List.mem_map.mp hmem
      have hsent := h.flight_perm.subset (List.mem_append_left _ hlate)
      have hless := Outgoing.reprieves_backedOff (hrationed.sent late hsent) (hspared late hlate)
        settings.allowance
      have hspare := hrationed.spare late (List.mem_append_left _ hsent)
      omega
    · exact hrationed.spare outgoing (List.mem_append_right _ hmem)
  · obtain ⟨command, -, rfl⟩ := List.mem_map.mp hmem
    exact Nat.le_of_eq (Outgoing.reprieves_unsent _ command)

theorem Ships.rationed (h : peer.Ships now check manifest after)
    (hspared : ∀ outgoing ∈ manifest.overdue, outgoing.isExhausted = false)
    (hrationed : Rationed peer.settings peer) : Rationed peer.settings after where
  sent outgoing hmem := by
    rw [h.sent] at hmem
    rcases List.mem_append.mp hmem with hmem | hmem
    · exact hrationed.sent outgoing (h.flight_perm.subset (List.mem_append_right _ hmem))
    · obtain ⟨other, -, rfl⟩ := List.mem_map.mp hmem
      exact peer.stamp_timeout_ne_zero other now
  spare outgoing hmem := by
    have htaken := h.spare_taken hspared hrationed
    rcases List.mem_append.mp hmem with hmem | hmem
    · rw [h.sent] at hmem
      rcases List.mem_append.mp hmem with hmem | hmem
      · exact hrationed.spare outgoing (List.mem_append_left _
          (h.flight_perm.subset (List.mem_append_right _ hmem)))
      · obtain ⟨other, hother, rfl⟩ := List.mem_map.mp hmem
        exact Nat.le_trans (peer.reprieves_stamp other now)
          (htaken other (List.mem_append_left _ hother))
    · exact htaken outgoing (List.mem_append_right _ hmem)
  loose outgoing hmem :=
    hrationed.loose outgoing (by rw [h.unreliable]; exact List.mem_append_right _ hmem)

/-- What goes out is paid for: an overdue command has one repetition less, and a command that
waited does not wait any more. -/
theorem Ships.reserve_le (h : peer.Ships now check manifest after)
    (hspared : ∀ outgoing ∈ manifest.overdue, outgoing.isExhausted = false)
    (hrationed : Rationed peer.settings peer) (command : Command) :
    (manifest.taken.map (·.command)).count command +
        after.reserve peer.settings.allowance command ≤
      peer.reserve peer.settings.allowance command +
        (1 + peer.settings.allowance) * (manifest.pings.map (·.command)).count command := by
  generalize hallowance : peer.settings.allowance = allowance
  have hflight : weigh (·.reprieves allowance) command manifest.overdue +
      weigh (·.reprieves allowance) command manifest.awaited =
        weigh (·.reprieves allowance) command peer.sent := by
    rw [← weigh_append, weigh_perm h.flight_perm]
  have hoverdue : weigh (dues allowance) command (manifest.overdue.map (·.backedOff)) ≤
      weigh (·.reprieves allowance) command manifest.overdue := by
    refine weigh_map_le _ (fun _ ↦ rfl) fun outgoing hmem ↦ ?_
    have hsent := h.flight_perm.subset (List.mem_append_left _ hmem)
    have hless := Outgoing.reprieves_backedOff (hrationed.sent outgoing hsent)
      (hspared outgoing hmem) allowance
    rwa [Nat.add_comm] at hless
  have hstamped : weigh (·.reprieves allowance) command (manifest.taken.map (peer.stamp · now)) ≤
      weigh (·.reprieves allowance) command manifest.taken := by
    subst hallowance
    exact weigh_map_le _ (peer.stamp_command · now) fun outgoing _ ↦
      peer.reprieves_stamp outgoing now
  have hpings : weigh (dues allowance) command manifest.pings =
      (1 + allowance) * (manifest.pings.map (·.command)).count command := by
    obtain ⟨fresh, hfresh⟩ := h.pings_unsent
    rw [hfresh, weigh_waiting, waiting, map_command]
  have hqueue := congrArg (weigh (dues allowance) command) h.reliable
  simp only [weigh_append] at hqueue
  rw [weigh_dues allowance manifest.taken] at hqueue
  rw [reserve, reserve, h.sent, weigh_append]
  omega

theorem compose_rationed (hkeeps : peer.settings = settings) (hrationed : Rationed settings peer)
    (now : Stamp) (check : Bool) : Rationed settings (peer.compose now check).2 := by
  subst hkeeps
  have hfilled {draft : Draft} {filled : Peer}
      (hfill : peer.fill now check = (some draft, filled)) :
      Rationed peer.settings filled := by
    obtain ⟨manifest, -, hships, hspared⟩ := fill_spares hfill
    exact hships.rationed hspared hrationed
  have hyields := peer.compose_yields now check
  generalize peer.compose now check = composed at hyields
  obtain ⟨result, last⟩ := composed
  cases hyields with
  | idle => exact hrationed
  | gaveUp _ hfill =>
    rw [(fill_eq_none hfill).1]
    exact .of_nil rfl rfl rfl
  | nothing _ hfill => exact hfilled hfill
  | failed _ hfill => exact { hfilled hfill with }
  | datagram _ hfill => exact { hfilled hfill with }

theorem Reached.rationed (h : Reached id settings peer) : Rationed settings peer :=
  h.of_steps (.of_nil rfl rfl rfl) Enrols.rationed fun now check hkeeps hrationed ↦
    compose_rationed hkeeps hrationed now check

end Peer

end ReliableDatagram
