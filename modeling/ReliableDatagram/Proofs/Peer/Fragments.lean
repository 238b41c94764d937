import ReliableDatagram.Proofs.Channel.Assembly
import ReliableDatagram.Proofs.Channel.Operations
import ReliableDatagram.Proofs.Peer.Bounds

/-!
# Fragments stay inside their packets

A reassembly checks nothing: it is the peer that refuses a fragment that does not lie inside its
packet, and the channel that puts it only into a run of the same size and count. This is enough.
Whatever arrives, no insertion goes out of bounds, a run misses as many fragments as its counter
tells, and a run that is delivered is made of fragments that have come, one for each number.
-/

namespace ReliableDatagram

namespace Channel

def HasRun (channel : Channel) (start : UInt32) (reassembly : Reassembly) : Prop :=
  ∃ entry ∈ channel.reliable, entry.sequence = start ∧ entry.content = .fragments reassembly

/-- The run that a fragment is put into, unless it is ignored. -/
def insertion? (channel : Channel) (fragment : Fragment) : Option Reassembly :=
  if fragment.start ≤ channel.incomingReliable then none
  else
    match channel.findRun fragment.start with
    | .taken => none
    | .found reassembly =>
      if reassembly.fits fragment.total.toNat fragment.count then some reassembly else none
    | .absent => some (.empty fragment.total.toNat fragment.count)

variable {channel after : Channel} {fragment : Fragment} {start : UInt32}
  {reassembly : Reassembly}

/-- The run that a fragment is put into has its size and count, and it is new or waits under
the start number of the fragment. -/
theorem insertion?_eq_some (h : channel.insertion? fragment = some reassembly) :
    reassembly.total = fragment.total.toNat ∧ reassembly.count = fragment.count ∧
      (reassembly = .empty fragment.total.toNat fragment.count ∨
        channel.HasRun fragment.start reassembly) := by
  unfold insertion? at h
  split at h
  · cases h
  · split at h
    · cases h
    · rename_i hfound
      split at h
      · rename_i hfits
        cases h
        rw [Reassembly.fits, Bool.and_eq_true, beq_iff_eq, beq_iff_eq] at hfits
        obtain ⟨front, entry, rest, hbuffer, hsequence, hcontent, -⟩ := findRun_eq_found hfound
        exact ⟨hfits.1, hfits.2, .inr ⟨entry, by rw [hbuffer]; simp, hsequence, hcontent⟩⟩
      · cases h
    · cases h
      exact ⟨rfl, rfl, .inl rfl⟩

structure Thins (channel after : Channel) : Prop where
  hasRun : ∀ {start : UInt32} {reassembly : Reassembly}, after.HasRun start reassembly →
    channel.HasRun start reassembly

theorem Thins.of_subset (h : after.reliable ⊆ channel.reliable) : channel.Thins after where
  hasRun := fun ⟨entry, hentry, hrun⟩ ↦ ⟨entry, h hentry, hrun⟩

end Channel

namespace Peer

/-! ## The runs of a peer -/

def HasRun (peer : Peer) (channel : UInt8) (start : UInt32) (reassembly : Reassembly) : Prop :=
  ∃ value, peer.channel? channel = some value ∧ value.HasRun start reassembly

structure Thins (peer after : Peer) : Prop where
  hasRun : ∀ {channel : UInt8} {start : UInt32} {reassembly : Reassembly},
    after.HasRun channel start reassembly → peer.HasRun channel start reassembly

variable {peer middle after : Peer} {command : Command} {context : Context}

theorem Thins.trans (h : peer.Thins middle) (hnext : middle.Thins after) : peer.Thins after where
  hasRun hrun := h.hasRun (hnext.hasRun hrun)

variable {header : Header} {event : Option PeerEvent} {fragment : Fragment}

def Action.fragment? : Action → Option (UInt8 × Fragment)
  | .handle _ command _ =>
    match command.body with
    | .sendFragment fragment => some (command.channel, fragment)
    | _ => none
  | _ => none

variable {action : Action} {id : UInt16} {settings : Settings}

/-- What a peer can come to be, whatever is asked of it and whatever arrives, with the fragments
that have come since its connection began. -/
inductive Supplied (id : UInt16) (settings : Settings) :
    List (UInt8 × Fragment) → Peer → Prop where
  | vacant : Supplied id settings [] (vacant id settings)
  | act {past : List (UInt8 × Fragment)} {peer after : Peer} {action : Action}
      {event : Option PeerEvent} (h : Supplied id settings past peer)
      (hact : peer.act action = .ok (event, after)) :
      Supplied id settings
        ((if action.begins then [] else past) ++ action.fragment?.toList) after
  /-- The host keeps its accounts, or asks for something. -/
  | operate {past : List (UInt8 × Fragment)} {peer after : Peer}
      (h : Supplied id settings past peer) (hoperates : Operates peer after) :
      Supplied id settings past after

/-- Whatever a peer has come to be, some fragments have come. -/
theorem Reached.exists_supplied (h : Reached id settings peer) :
    ∃ past, Supplied id settings past peer := by
  induction h with
  | vacant => exact ⟨[], .vacant⟩
  | act _ hact ih =>
    obtain ⟨past, hpast⟩ := ih
    exact ⟨_, hpast.act hact⟩
  | operate _ hoperates ih =>
    obtain ⟨past, hpast⟩ := ih
    exact ⟨past, hpast.operate hoperates⟩

/-- A run is sound, and its pieces are fragments of it that have come. -/
structure MadeOf (past : List (UInt8 × Fragment)) (channel : UInt8) (start : UInt32)
    (reassembly : Reassembly) : Prop where
  sound : reassembly.Sound
  origin : ∀ piece ∈ reassembly.pieces, ∃ fragment, (channel, fragment) ∈ past ∧
    fragment.start = start ∧ fragment.total.toNat = reassembly.total ∧
    fragment.count = reassembly.count ∧ piece = fragment.toPiece

variable {past later : List (UInt8 × Fragment)} {channel : UInt8} {start : UInt32}
  {reassembly : Reassembly} {value : Channel}

theorem MadeOf.mono (h : MadeOf past channel start reassembly) (hsubset : past ⊆ later) :
    MadeOf later channel start reassembly where
  sound := h.sound
  origin piece hpiece := by
    obtain ⟨fragment, hpast, hfields⟩ := h.origin piece hpiece
    exact ⟨fragment, hsubset hpast, hfields⟩

/-- What the peer accepts lies inside its packet. -/
theorem acceptsFragment_inside (h : peer.acceptsFragment fragment = true) :
    fragment.number < fragment.count ∧
      fragment.offset.toNat + fragment.payload.length ≤ fragment.total.toNat := by
  simp only [acceptsFragment, Bool.and_eq_true, decide_eq_true_eq] at h
  exact ⟨h.1.1.2, h.1.1.1.2⟩

/-- The run that a fragment is put into is sound before and after. -/
theorem MadeOf.insert (haccepts : peer.acceptsFragment fragment = true)
    (hinsertion : value.insertion? fragment = some reassembly)
    (hruns : ∀ start reassembly, value.HasRun start reassembly →
      MadeOf past channel start reassembly) :
    MadeOf past channel fragment.start reassembly ∧
      MadeOf (past ++ [(channel, fragment)]) channel fragment.start
        (reassembly.insert fragment.number fragment.offset.toNat fragment.payload).2 := by
  obtain ⟨hnumber, hinside⟩ := acceptsFragment_inside haccepts
  obtain ⟨htotal, hcount, hrun⟩ := Channel.insertion?_eq_some hinsertion
  have hbefore : MadeOf past channel fragment.start reassembly := by
    rcases hrun with rfl | hrun
    · exact ⟨.empty _ _, by simp [Reassembly.empty]⟩
    · exact hruns _ _ hrun
  rw [← hcount] at hnumber
  rw [← htotal] at hinside
  refine ⟨hbefore, hbefore.sound.insert hnumber hinside, ?_⟩
  have hgrown := hbefore.mono (List.subset_append_left past [(channel, fragment)])
  unfold Reassembly.insert
  split
  · exact hgrown.origin
  · intro piece hpiece
    rcases List.mem_cons.mp hpiece with rfl | hpiece
    · exact ⟨fragment, List.mem_append_right _ List.mem_cons_self, rfl, htotal.symm, hcount.symm,
        rfl⟩
    · exact hgrown.origin piece hpiece

/-- The fragments that some actions bring, behind those that came before. -/
def suppliedBy (past : List (UInt8 × Fragment)) (actions : List Action) :
    List (UInt8 × Fragment) :=
  actions.foldl (fun past action ↦
    (if action.begins then [] else past) ++ action.fragment?.toList) past

theorem Supplied.run {actions : List Action} {events : List PeerEvent}
    (h : Supplied id settings past peer) (hrun : peer.run actions = .ok (events, after)) :
    Supplied id settings (suppliedBy past actions) after := by
  induction actions generalizing past peer events with
  | nil =>
    cases hrun
    exact h
  | cons action rest ih =>
    obtain ⟨event, middle, later, hact, hrest, -⟩ := run_cons_eq_ok hrun
    exact ih (h.act hact) hrest

end Peer

end ReliableDatagram
