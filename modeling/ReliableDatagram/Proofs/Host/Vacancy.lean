import ReliableDatagram.Proofs.Host.Runs

/-!
# Vacant slots of connections that are over

When the end of a connection is returned, its slot is vacant, with one exception. Several
connections can end in one round of sending, and their ends are returned one by one. If the
application begins a connection in between, it gets the lowest vacant slot, and that may be
one whose end still waits to be returned. There is no other way: a connection that the other
side asks for never takes such a slot.
-/

namespace ReliableDatagram

namespace Host

variable {host after : Host} {answer : Answer} {id : PeerId}

/-- A slot is taken while the end of the connection that was in it before waits to be
returned. -/
def Retaken (host : Host) (id : PeerId) : Prop :=
  .disconnected id ∈ host.pending ∧ host.peer? id ≠ none

/-- Without a new connection this is so only where it was so before. -/
theorem Clears.retaken (h : Clears host after) (hretaken : after.Retaken id) :
    host.Retaken id := by
  refine ⟨(h.reported id hretaken.1).resolve_right hretaken.2, fun hnone ↦ ?_⟩
  exact hretaken.2 ((h.vacant id hnone).of_none hnone).1

/-- What an operation does to the slots and to the events that wait. A slot that a report names
is vacant, unless the report waited before and the slot was taken then, or is now. -/
structure Operates (host : Host) (answer : Answer) (after : Host) : Prop where
  sound : after.table.Sound
  silent : (∀ id, .connected id ∉ host.pending) → ∀ id, .connected id ∉ after.pending
  reported : ∀ id, answer.event? = some (.disconnected id) ∨ .disconnected id ∈ after.pending →
    after.peer? id = none ∨
      .disconnected id ∈ host.pending ∧ (host.peer? id ≠ none ∨ answer = .opened id)

theorem Clears.operates (h : Clears host after) (hsound : host.table.Sound)
    (hanswer : answer.event? = none) : Operates host answer after where
  sound := h.sound hsound
  silent hsilent id hmem := hsilent id (h.connected id hmem)
  reported id hreported := by
    rw [hanswer, or_iff_right (Option.some_ne_none _).symm] at hreported
    rcases h.reported id hreported with hwaited | hvacant
    · by_cases hnone : host.peer? id = none
      · exact .inl ((h.vacant id hnone).of_none hnone).1
      · exact .inr ⟨hwaited, .inl hnone⟩
    · exact .inl hvacant

end Host

namespace LiveHost

open Host

variable {σ : Type} (env : Environment σ) {live after : LiveHost σ} {answer : Answer}

/-- Serving returns reports that waited, or new ones, which come with vacant slots. -/
theorem service_operates {timeout : UInt32} {rounds : Nat} {event : Option Event}
    (h : live.service env timeout rounds = .ok (event, after)) (hsound : live.host.table.Sound)
    (hanswer : answer.event? = event) : Operates live.host answer after.host := by
  have hclears := (live.applyRequests_acts env).clears
  rcases service_served env h hsound with ⟨first, rfl, hpop⟩ | ⟨hempty, hserved⟩
  · obtain ⟨hpending, htable⟩ := Host.popEvent_eq_some hpop
    have hall : Operates live.host .done (live.applyRequests env).host :=
      hclears.operates hsound rfl
    refine ⟨htable ▸ hall.sound, fun hsilent id hmem ↦ ?_, fun id hreported ↦ ?_⟩
    · exact hall.silent hsilent id (hpending ▸ List.mem_cons_of_mem _ hmem)
    · have hmem : .disconnected id ∈ (live.applyRequests env).host.pending := by
        rw [hpending]
        rcases hreported with hevent | hmem
        · rw [hanswer] at hevent
          cases hevent
          exact List.mem_cons_self
        · exact List.mem_cons_of_mem _ hmem
      have hslot : after.host.peer? id = (live.applyRequests env).host.peer? id := by
        rw [peer?, htable]
        rfl
      rw [hslot]
      exact (hall.reported id (.inr hmem)).imp_right fun hwaited ↦
        ⟨hwaited.1, .inl (hwaited.2.resolve_right (by intro heq; cases heq))⟩
  · refine ⟨hserved.sound, fun _ ↦ hserved.silent, fun id hreported ↦ ?_⟩
    rw [hanswer] at hreported
    exact .inl (hserved.vacant id hreported)

theorem perform_operates {operation : Operation σ}
    (h : live.perform env operation = .ok (answer, after)) (hsound : live.host.table.Sound) :
    Operates live.host answer after.host := by
  cases performs_of_perform env h hsound with
  | acts hanswer hacts => exact hacts.clears.operates hsound hanswer
  | @opens id hanswer hvacant htable hpending hsame =>
    refine ⟨htable, fun hsilent other ↦ hpending ▸ hsilent other, fun other hreported ↦ ?_⟩
    rw [hpending, hanswer] at hreported
    have hwaited := hreported.resolve_left (by intro heq; cases heq)
    by_cases heq : other = id
    · exact .inr ⟨hwaited, .inr (hanswer.trans (congrArg Answer.opened heq.symm))⟩
    · rw [hsame other heq]
      by_cases hnone : live.host.peer? other = none
      · exact .inl hnone
      · exact .inr ⟨hwaited, .inl hnone⟩
  | serves _ hservice => exact service_operates env hservice hsound rfl

end LiveHost

namespace Run

open Host

variable {σ : Type} {env : Environment σ} {turns : List (Turn σ)} {live after : LiveHost σ}
  {id : PeerId}

/-- The slots that are listed as vacant are so, and no greeting waits between two operations. -/
theorem sound (h : Run env turns live) :
    live.host.table.Sound ∧ ∀ id, .connected id ∉ live.host.pending := by
  induction h with
  | start capacity incoming outgoing settings world =>
    exact ⟨SlotTable.sound_empty capacity settings, fun _ ↦ List.not_mem_nil⟩
  | turn _ hperform ih =>
    have hoperates := LiveHost.perform_operates env hperform ih.1
    exact ⟨hoperates.sound, hoperates.silent ih.2⟩

/-- While the end of the connection in a slot waited to be returned, the application began a
connection that got the slot, and from then on the report waited and the slot was taken. -/
def Overtaken (turns : List (Turn σ)) (live : LiveHost σ) (id : PeerId) : Prop :=
  ∃ earlier turn later, turns = earlier ++ turn :: later ∧ turn.answer = .opened id ∧
    .disconnected id ∈ turn.before.host.pending ∧
    ∀ host ∈ later.map (·.before.host) ++ [live.host], host.Retaken id

theorem Overtaken.turn {operation : Operation σ} {answer : Answer}
    (h : Overtaken turns live id) (hretaken : after.host.Retaken id) :
    Overtaken (turns ++ [⟨live, operation, answer⟩]) after id := by
  obtain ⟨earlier, turn, later, rfl, hopened, hwaited, hlater⟩ := h
  refine ⟨earlier, turn, later ++ [⟨live, operation, answer⟩], ?_, hopened, hwaited, ?_⟩
  · rw [List.append_assoc, List.cons_append]
  · intro host hhost
    rw [List.map_append, List.mem_append] at hhost
    rcases hhost with hhost | hhost
    · exact hlater host hhost
    · rw [List.mem_singleton.mp hhost]
      exact hretaken

/-- What a report that waits says of its slot. -/
theorem overtaken_of_retaken (h : Run env turns live) (hretaken : live.host.Retaken id) :
    Overtaken turns live id := by
  induction h with
  | start => cases hretaken.1
  | @turn turns live after operation answer hrun hperform ih =>
    have hoperates := LiveHost.perform_operates env hperform hrun.sound.1
    obtain ⟨hwaited, htaken⟩ :=
      (hoperates.reported id (.inr hretaken.1)).resolve_left hretaken.2
    rcases htaken with hbefore | hopened
    · exact (ih ⟨hwaited, hbefore⟩).turn hretaken
    · refine ⟨turns, ⟨live, operation, answer⟩, [], rfl, hopened, hwaited, ?_⟩
      intro host hhost
      rw [List.mem_singleton.mp hhost]
      exact hretaken

/-- When the end of a connection is returned, its slot is vacant, unless the application has
begun a connection in it while the report waited, and none of the requests that serving carries
out first has freed the slot again. -/
theorem vacant_iff_not_overtaken {timeout : UInt32} {rounds : Nat} (h : Run env turns live)
    (hservice : live.service env timeout rounds = .ok (some (.disconnected id), after)) :
    after.host.peer? id = none ↔
      ¬ (Overtaken turns live id ∧ (live.applyRequests env).host.Retaken id) := by
  have hclears := (live.applyRequests_acts env).clears
  rcases LiveHost.service_served env hservice h.sound.1 with ⟨first, heq, hpop⟩ | ⟨hempty, hserved⟩
  · -- The report waited, so the slot is as the requests have left it.
    cases heq
    obtain ⟨hpending, htable⟩ := popEvent_eq_some hpop
    have hslot : after.host.peer? id = (live.applyRequests env).host.peer? id := by
      rw [peer?, htable]
      rfl
    have hmem : .disconnected id ∈ (live.applyRequests env).host.pending := by
      rw [hpending]
      exact List.mem_cons_self
    rw [hslot]
    constructor
    · intro hvacant hboth
      exact hboth.2.2 hvacant
    · intro hnot
      by_contra htaken
      have hretaken : (live.applyRequests env).host.Retaken id := ⟨hmem, htaken⟩
      exact hnot ⟨h.overtaken_of_retaken (hclears.retaken hretaken), hretaken⟩
  · -- The report is new.
    refine iff_of_true (hserved.vacant id (.inl rfl)) fun hboth ↦ ?_
    have hmem := hboth.2.1
    rw [hempty] at hmem
    cases hmem

/-- Two connections that nobody answers, and that are begun anew as soon as the end of the first
is reported. -/
def reconnection : List (Operation Script) := [
  .connect ⟨"10.0.0.8", 8⟩ 1 1,
  .connect ⟨"10.0.0.9", 9⟩ 1 2,
  .service 0 1,
  .outside fun script ↦ { script with elapsed := 60000 },
  .service 0 1,
  .connect ⟨"10.0.0.8", 8⟩ 1 3,
  .connect ⟨"10.0.0.9", 9⟩ 1 4]

/-- The end of the second connection is returned when its slot is taken again. -/
theorem overtaken_reconnection :
    ∃ turns live after, rehearse reconnection = some (turns, live) ∧
      live.service Script.environment 0 1 = .ok (some (.disconnected 1), after) ∧
      after.host.peer? 1 ≠ none ∧ Overtaken turns live 1 := by
  have hreplay : ((rehearse reconnection).any fun (_, live) ↦
      match live.service Script.environment 0 1 with
      | .error _ => false
      | .ok (event, after) => event = some (.disconnected 1) ∧ (after.host.peer? 1).isSome) := by
    decide +kernel
  obtain ⟨⟨turns, live⟩, hlive, hserved⟩ := (Option.any_eq_true _ _).mp hreplay
  dsimp only at hserved
  split at hserved
  · cases hserved
  · rename_i event after hservice
    obtain ⟨rfl, htaken⟩ := of_decide_eq_true hserved
    have htaken : after.host.peer? 1 ≠ none := Option.isSome_iff_ne_none.mp htaken
    have hiff := (run_of_rehearse hlive).vacant_iff_not_overtaken hservice
    exact ⟨turns, live, after, hlive, hservice, htaken, (not_not.mp (htaken ∘ hiff.mpr)).1⟩

end Run

end ReliableDatagram
