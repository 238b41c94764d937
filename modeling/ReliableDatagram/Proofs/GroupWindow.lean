import ReliableDatagram.GroupWindow
import ReliableDatagram.Proofs.Bitmap
import Mathlib.Data.List.Nodup

/-!
# What the window of groups remembers

The window knows only the numbers that it has accepted since it last moved. That is enough to
answer as if it knew all numbers that were ever accepted: a number is refused if it was accepted
before or lies below the multiple of the span that the greatest accepted number lies above.

The same answers come from a bitmap that has one bit for each number of the window, and that is
cleared when the window moves: the place of a number in it is its remainder by the span, and two
numbers of one window never share a place.
-/

namespace ReliableDatagram

namespace GroupWindow

/-! ## All numbers that were accepted -/

/-- Some numbers come, one after the other: those that are accepted, the latest first, and what
the window becomes. -/
def run (window : GroupWindow) : List UInt32 → List UInt32 × GroupWindow
  | [] => ([], window)
  | group :: rest =>
    let (isNew, middle) := window.accept group
    let (later, after) := middle.run rest
    (if isNew then later ++ [group] else later, after)

def greatest : List UInt32 → Nat
  | [] => 0
  | group :: rest => max group.toNat (greatest rest)

theorem toNat_le_greatest {history : List UInt32} {group : UInt32} (h : group ∈ history) :
    group.toNat ≤ greatest history := by
  induction history with
  | nil => cases h
  | cons head rest ih =>
    rcases List.mem_cons.mp h with rfl | hrest
    · exact Nat.le_max_left _ _
    · exact Nat.le_trans (ih hrest) (Nat.le_max_right _ _)

/-- The window stands at the greatest number of a history, and remembers the numbers of the
history that lie in it. -/
structure Remembers (span : Nat) (history : List UInt32) (window : GroupWindow) : Prop where
  span_eq : window.span.toNat = span
  base_eq : window.base.toNat = span * (greatest history / span)
  mem_accepted : ∀ group, group ∈ window.accepted ↔ group ∈ history ∧ window.base ≤ group
  distinct : history.Nodup

variable {span : Nat} {history later groups : List UInt32} {window after : GroupWindow}
  {group other size : UInt32}

/-- No number of the history lies beyond the window. -/
theorem Remembers.lt_of_mem (h : Remembers span history window) (hspan : 0 < span)
    (hmem : group ∈ history) : group.toNat < window.base.toNat + span := by
  have hle := toNat_le_greatest hmem
  have hlt := Nat.lt_mul_div_succ (greatest history) hspan
  rw [h.base_eq]
  rw [Nat.mul_add, Nat.mul_one] at hlt
  omega

/-- The number from which a window that holds a number begins. -/
theorem toNat_sub_mod (group divisor : UInt32) :
    (group - group % divisor).toNat = divisor.toNat * (group.toNat / divisor.toNat) := by
  have hle : group % divisor ≤ group := by
    rw [UInt32.le_iff_toNat_le, UInt32.toNat_mod]
    exact Nat.mod_le _ _
  have hsum := Nat.div_add_mod group.toNat divisor.toNat
  rw [UInt32.toNat_sub_of_le _ _ hle, UInt32.toNat_mod]
  omega

/-- The three ways in which a number is answered. -/
theorem Remembers.accept_cases (h : Remembers span history window) (hspan : 0 < span)
    (group : UInt32) :
    (window.base.toNat + span ≤ group.toNat ∧ group ∉ history ∧
        window.accept group =
          (true, { window with base := group - group % window.span, accepted := [group] })) ∨
      ((group < window.base ∨ group ∈ history) ∧ group.toNat < window.base.toNat + span ∧
        window.accept group = (false, window)) ∨
      (window.base ≤ group ∧ group ∉ history ∧ group.toNat < window.base.toNat + span ∧
        window.accept group = (true, { window with accepted := group :: window.accepted })) := by
  have hmem := h.mem_accepted group
  unfold accept
  rw [h.span_eq]
  split
  · rename_i hbeyond
    refine .inl ⟨hbeyond, fun hold ↦ ?_, rfl⟩
    have hlt := h.lt_of_mem hspan hold
    omega
  · rename_i hwithin
    rw [Nat.not_le] at hwithin
    by_cases hbelow : group < window.base
    · rw [if_pos (.inl hbelow)]
      exact .inr (.inl ⟨.inl hbelow, hwithin, rfl⟩)
    · have hmem : group ∈ window.accepted ↔ group ∈ history := by
        rw [hmem, and_iff_left (UInt32.not_lt.mp hbelow)]
      by_cases hold : group ∈ history
      · rw [if_pos (.inr (hmem.mpr hold))]
        exact .inr (.inl ⟨.inr hold, hwithin, rfl⟩)
      · rw [if_neg (not_or.mpr ⟨hbelow, mt hmem.mp hold⟩)]
        exact .inr (.inr ⟨UInt32.not_lt.mp hbelow, hold, hwithin, rfl⟩)

/-- A number is accepted if it is not in the history and does not lie below the window. -/
theorem Remembers.accept_eq_true_iff (h : Remembers span history window) (hspan : 0 < span)
    (group : UInt32) : (window.accept group).1 = true ↔
      group ∉ history ∧ span * (greatest history / span) ≤ group.toNat := by
  rw [← h.base_eq, ← UInt32.le_iff_toNat_le]
  rcases h.accept_cases hspan group with ⟨hbeyond, hnew, heq⟩ | ⟨hold, -, heq⟩ | ⟨hle, hnew, -, heq⟩
  · rw [heq, UInt32.le_iff_toNat_le]
    exact ⟨fun _ ↦ ⟨hnew, by omega⟩, fun _ ↦ rfl⟩
  · rw [heq]
    refine ⟨fun h ↦ (by cases h), fun ⟨hnew, hle⟩ ↦ ?_⟩
    rcases hold with hbelow | hold
    · exact absurd hle (UInt32.not_le.mpr hbelow)
    · exact absurd hold hnew
  · rw [heq]
    exact ⟨fun _ ↦ ⟨hnew, hle⟩, fun _ ↦ rfl⟩

theorem Remembers.empty (hspan : (roundedSpan size).toNat = span) :
    Remembers span [] (.empty size) where
  span_eq := hspan
  base_eq := by rw [greatest, Nat.zero_div, Nat.mul_zero]; rfl
  mem_accepted group := by simp [GroupWindow.empty]
  distinct := List.nodup_nil

/-- A number beyond the window begins a new one, which knows no other number. -/
theorem Remembers.move (h : Remembers span history window) (hspan : 0 < span)
    (hnew : group ∉ history) (hbeyond : window.base.toNat + span ≤ group.toNat) :
    Remembers span (group :: history)
      { window with base := group - group % window.span, accepted := [group] } := by
  have hfloor := toNat_sub_mod group window.span
  rw [h.span_eq] at hfloor
  have hbase := h.base_eq
  have hrest : greatest history ≤ group.toNat := by
    have hlt := Nat.lt_mul_div_succ (greatest history) hspan
    rw [Nat.mul_add, Nat.mul_one] at hlt
    omega
  have hlow : group - group % window.span ≤ group := by
    rw [UInt32.le_iff_toNat_le, hfloor]
    exact Nat.mul_div_le _ _
  refine ⟨h.span_eq, ?_, fun other ↦ ⟨fun hmem ↦ ?_, fun ⟨hmem, hfrom⟩ ↦ ?_⟩,
    List.nodup_cons.mpr ⟨hnew, h.distinct⟩⟩
  · rw [greatest, Nat.max_eq_left hrest, hfloor]
  · rw [List.mem_singleton.mp hmem]
    exact ⟨List.mem_cons_self, hlow⟩
  · rcases List.mem_cons.mp hmem with rfl | hold
    · exact List.mem_cons_self
    · -- All earlier numbers lie below the window that begins with this one.
      have hlt := h.lt_of_mem hspan hold
      have hdiv := Nat.div_le_div_right (c := span) hbeyond
      rw [hbase, Nat.add_comm, Nat.add_mul_div_left _ _ hspan, Nat.div_self hspan] at hdiv
      have hmul := Nat.mul_le_mul_left span hdiv
      rw [Nat.mul_add, Nat.mul_one] at hmul
      rw [UInt32.le_iff_toNat_le, hfloor] at hfrom
      omega

/-- A number in the window leaves it where it is. -/
theorem Remembers.note (h : Remembers span history window) (hspan : 0 < span)
    (hnew : group ∉ history) (hle : window.base ≤ group)
    (hlt : group.toNat < window.base.toNat + span) :
    Remembers span (group :: history)
      { window with accepted := group :: window.accepted } := by
  have hsame : max group.toNat (greatest history) / span = greatest history / span := by
    apply Nat.div_eq_of_lt_le
    · rw [Nat.mul_comm, ← h.base_eq]
      exact Nat.le_trans (UInt32.le_iff_toNat_le.mp hle) (Nat.le_max_left _ _)
    · have hlater := Nat.lt_mul_div_succ (greatest history) hspan
      rw [h.base_eq] at hlt
      rw [Nat.mul_comm]
      rw [Nat.mul_add, Nat.mul_one] at hlater ⊢
      omega
  refine ⟨h.span_eq, ?_, fun other ↦ ?_, List.nodup_cons.mpr ⟨hnew, h.distinct⟩⟩
  · rw [greatest, hsame]
    exact h.base_eq
  · simp only [List.mem_cons, h.mem_accepted other]
    refine ⟨?_, fun ⟨hmem, hfrom⟩ ↦ hmem.imp_right fun hold ↦ ⟨hold, hfrom⟩⟩
    rintro (rfl | ⟨hold, hfrom⟩)
    · exact ⟨.inl rfl, hle⟩
    · exact ⟨.inr hold, hfrom⟩

/-- What was accepted joins the history, and the window still remembers it. -/
theorem Remembers.accept (h : Remembers span history window) (hspan : 0 < span)
    (group : UInt32) :
    Remembers span (if (window.accept group).1 then group :: history else history)
      (window.accept group).2 := by
  rcases h.accept_cases hspan group with ⟨hbeyond, hnew, heq⟩ | ⟨-, -, heq⟩ |
    ⟨hle, hnew, hlt, heq⟩
  · rw [heq, if_pos rfl]
    exact h.move hspan hnew hbeyond
  · rw [heq, if_neg Bool.false_ne_true]
    exact h
  · rw [heq, if_pos rfl]
    exact h.note hspan hnew hle hlt

theorem run_cons (window : GroupWindow) (group : UInt32) (rest : List UInt32) :
    window.run (group :: rest) =
      (((window.accept group).2.run rest).1 ++ if (window.accept group).1 then [group] else [],
        ((window.accept group).2.run rest).2) := by
  rw [run]
  dsimp only
  split <;> simp

theorem Remembers.run (h : Remembers span history window) (hspan : 0 < span)
    (groups : List UInt32) :
    Remembers span ((window.run groups).1 ++ history) (window.run groups).2 := by
  induction groups generalizing window history with
  | nil => exact h
  | cons group rest ih =>
    have hrest := ih (h.accept hspan group)
    rw [run_cons]
    dsimp only
    rw [List.append_assoc]
    convert hrest using 2
    split <;> rfl

theorem run_subset (window : GroupWindow) (groups : List UInt32) :
    (window.run groups).1 ⊆ groups := by
  induction groups generalizing window with
  | nil => exact List.Subset.refl _
  | cons group rest ih =>
    rw [run_cons]
    refine List.append_subset.mpr ⟨fun other hother ↦ List.mem_cons_of_mem _ (ih _ hother), ?_⟩
    split <;> simp

theorem toNat_roundedSpan (hsize : size.toNat ≤ 4294967264) :
    (roundedSpan size).toNat = max 32 ((size.toNat + 31) / 32 * 32) := by
  have hmax : (max size 32).toNat = max size.toNat 32 := by
    rw [UInt32.max_def]
    split <;> rename_i hle <;> rw [UInt32.le_iff_toNat_le, UInt32.toNat_ofNat,
      Nat.mod_eq_of_lt (by decide : 32 < 2 ^ 32)] at hle
    · rw [Nat.max_eq_right hle]
      rfl
    · rw [Nat.max_eq_left (by omega)]
  rw [roundedSpan, hmax, UInt32.toNat_ofNat']
  omega

/-- Two numbers of one window leave the same remainder only if they are the same. -/
theorem mod_beq_mod {base : Nat} {divisor : UInt32} (hbase : divisor.toNat ∣ base)
    (hle : base ≤ group.toNat) (hlt : group.toNat < base + divisor.toNat)
    (hother : base ≤ other.toNat) (hwithin : other.toNat < base + divisor.toNat) :
    (other % divisor == group % divisor) = decide (other = group) := by
  rw [Bool.eq_iff_iff, beq_iff_eq, decide_eq_true_eq]
  refine ⟨fun hmod ↦ ?_, fun heq ↦ by rw [heq]⟩
  have hmod : other.toNat % divisor.toNat = group.toNat % divisor.toNat := by
    rw [← UInt32.toNat_mod, hmod, UInt32.toNat_mod]
  obtain ⟨count, rfl⟩ := hbase
  have hdiv (number : Nat) (hle : divisor.toNat * count ≤ number)
      (hlt : number < divisor.toNat * count + divisor.toNat) : number / divisor.toNat = count :=
    Nat.div_eq_of_lt_le (by rw [Nat.mul_comm]; exact hle)
      (by rw [Nat.mul_comm, Nat.mul_add, Nat.mul_one]; exact hlt)
  have hgroup := Nat.div_add_mod group.toNat divisor.toNat
  have hsame := Nat.div_add_mod other.toNat divisor.toNat
  rw [hdiv _ hle hlt] at hgroup
  rw [hdiv _ hother hwithin, hmod] at hsame
  exact UInt32.toNat_inj.mp (hsame.symm.trans hgroup)

end GroupWindow

/-! ## The window as a bitmap -/

/-- A window that has one bit for each of its numbers, at the place that the remainder by the
span tells. -/
structure GroupBitmap where
  base : UInt32
  /-- The places of the numbers that were accepted. -/
  marks : Bitmap
deriving DecidableEq, Repr

namespace GroupBitmap

def span (window : GroupBitmap) : UInt32 := UInt32.ofNat window.marks.words.length * 32

def empty (size : UInt32) : GroupBitmap := ⟨0, .empty (((max size 32).toNat + 31) / 32)⟩

/-- Accepts a number unless it lies below the window or its place is marked. There is no answer if
the window spans no numbers or the bitmap has no such place. -/
def accept (window : GroupBitmap) (group : UInt32) : Option (Bool × GroupBitmap) :=
  let index := group % window.span
  if window.span = 0 then none
  else if window.base.toNat + window.span.toNat ≤ group.toNat then
    ((Bitmap.empty window.marks.words.length).mark index).map fun marks ↦
      (true, ⟨group - index, marks⟩)
  else if group < window.base then some (false, window)
  else
    match window.marks.test index with
    | none => none
    | some true => some (false, window)
    | some false =>
      (window.marks.mark index).map fun marks ↦ (true, { window with marks := marks })

/-- Some numbers come, one after the other, and all are answered: those that are accepted, the
latest first, and what the window becomes. -/
def run (window : GroupBitmap) : List UInt32 → Option (List UInt32 × GroupBitmap)
  | [] => some ([], window)
  | group :: rest =>
    match window.accept group with
    | none => none
    | some (isNew, middle) =>
      (middle.run rest).map fun (later, after) ↦
        (if isNew then later ++ [group] else later, after)

/-- The bitmap has the same numbers marked that the window remembers. -/
structure Depicts (window : GroupWindow) (bitmap : GroupBitmap) : Prop where
  base : bitmap.base = window.base
  span : bitmap.span = window.span
  length : bitmap.marks.words.length * 32 = window.span.toNat
  test : ∀ group, window.base ≤ group → group.toNat < window.base.toNat + window.span.toNat →
    bitmap.marks.test (group % window.span) = some (decide (group ∈ window.accepted))

variable {size group : UInt32} {span : Nat} {history : List UInt32} {window : GroupWindow}
  {bitmap : GroupBitmap}

/-- Every number has a place in the bitmap. -/
theorem Depicts.slot_lt (h : Depicts window bitmap) (hspan : 0 < window.span.toNat)
    (group : UInt32) : Bitmap.slot (group % window.span) < bitmap.marks.words.length := by
  have hlength := h.length
  have hlt := Nat.mod_lt group.toNat hspan
  rw [Bitmap.slot, UInt32.toNat_div, UInt32.toNat_mod, UInt32.toNat_ofNat,
    Nat.mod_eq_of_lt (by decide : 32 < 2 ^ 32)]
  omega

theorem Depicts.empty (hsize : size.toNat ≤ 4294967264) :
    Depicts (.empty size) (.empty size) := by
  have hmax : (max size 32).toNat ≤ 4294967264 := by
    rw [UInt32.max_def]
    split
    · decide
    · exact hsize
  have hspan : (GroupWindow.roundedSpan size).toNat = ((max size 32).toNat + 31) / 32 * 32 := by
    rw [GroupWindow.roundedSpan, UInt32.toNat_ofNat']
    omega
  have hlength : (Bitmap.empty (((max size 32).toNat + 31) / 32)).words.length =
      ((max size 32).toNat + 31) / 32 := List.length_replicate
  refine ⟨rfl, ?_, ?_, fun group _ hlt ↦ ?_⟩
  · have hwords : ((max size 32).toNat + 31) / 32 * 32 < 2 ^ 32 := by omega
    apply UInt32.toNat_inj.mp
    change _ = (GroupWindow.roundedSpan size).toNat
    rw [GroupBitmap.span, GroupBitmap.empty, hlength, hspan, UInt32.toNat_mul,
      UInt32.toNat_ofNat', UInt32.toNat_ofNat, Nat.mod_eq_of_lt (by decide : 32 < 2 ^ 32),
      Nat.mod_eq_of_lt (by omega : ((max size 32).toNat + 31) / 32 < 2 ^ 32),
      Nat.mod_eq_of_lt hwords]
  · rw [GroupBitmap.empty, hlength, GroupWindow.empty, hspan]
  · have hslot : Bitmap.slot (group % GroupWindow.roundedSpan size) <
        ((max size 32).toNat + 31) / 32 := by
      have hlt : group.toNat < (GroupWindow.roundedSpan size).toNat := by
        simpa [GroupWindow.empty] using hlt
      rw [Bitmap.slot, UInt32.toNat_div, UInt32.toNat_mod, UInt32.toNat_ofNat,
        Nat.mod_eq_of_lt (by decide : 32 < 2 ^ 32), Nat.mod_eq_of_lt hlt]
      omega
    rw [GroupBitmap.empty, GroupWindow.empty]
    dsimp only
    rw [Bitmap.test_empty, if_pos hslot]
    simp

/-- A cleared bitmap with the place of one number depicts the window that begins with it. -/
theorem Depicts.move (h : Depicts window bitmap) (hspan : 0 < window.span.toNat)
    (group : UInt32) : ∃ marks,
      (Bitmap.empty bitmap.marks.words.length).mark (group % window.span) = some marks ∧
        Depicts { window with base := group - group % window.span, accepted := [group] }
          ⟨group - group % window.span, marks⟩ := by
  have hlength : (Bitmap.empty bitmap.marks.words.length).words.length =
    bitmap.marks.words.length := List.length_replicate
  obtain ⟨marks, hmarks⟩ := Bitmap.exists_mark (hlength ▸ h.slot_lt hspan group)
  have hwords := (Bitmap.length_of_mark hmarks).trans hlength
  have hfloor := GroupWindow.toNat_sub_mod group window.span
  refine ⟨marks, hmarks, rfl, ?_, ?_, fun other hother hwithin ↦ ?_⟩
  · rw [← h.span, GroupBitmap.span, GroupBitmap.span, hwords]
  · rw [hwords]
    exact h.length
  · have hbelow := Nat.lt_mul_div_succ group.toNat hspan
    rw [Nat.mul_add, Nat.mul_one] at hbelow
    rw [UInt32.le_iff_toNat_le] at hother
    dsimp only at hother hwithin ⊢
    rw [hfloor] at hother hwithin
    rw [Bitmap.test_of_mark hmarks, Bitmap.test_empty, if_pos (h.slot_lt hspan other),
      GroupWindow.mod_beq_mod (Nat.dvd_mul_right _ _) (Nat.mul_div_le _ _) hbelow hother hwithin]
    simp

/-- With the place of another number of the window, the bitmap depicts the window with it. -/
theorem Depicts.note (h : Depicts window bitmap) (hspan : 0 < window.span.toNat)
    (hbase : window.span.toNat ∣ window.base.toNat) (hle : window.base ≤ group)
    (hlt : group.toNat < window.base.toNat + window.span.toNat) : ∃ marks,
      bitmap.marks.mark (group % window.span) = some marks ∧
        Depicts { window with accepted := group :: window.accepted }
          { bitmap with marks := marks } := by
  obtain ⟨marks, hmarks⟩ := Bitmap.exists_mark (h.slot_lt hspan group)
  have hwords := Bitmap.length_of_mark hmarks
  refine ⟨marks, hmarks, h.base, ?_, ?_, fun other hother hwithin ↦ ?_⟩
  · rw [← h.span, GroupBitmap.span, GroupBitmap.span, hwords]
  · rw [hwords]
    exact h.length
  · rw [UInt32.le_iff_toNat_le] at hle
    rw [Bitmap.test_of_mark hmarks, h.test other hother hwithin,
      GroupWindow.mod_beq_mod hbase hle hlt (UInt32.le_iff_toNat_le.mp hother) hwithin]
    simp [Bool.or_comm]

/-- The bitmap answers like the window, and goes on depicting it. -/
theorem Depicts.accept (h : Depicts window bitmap)
    (hremembers : GroupWindow.Remembers span history window) (hspan : 0 < span)
    (group : UInt32) : ∃ next,
      bitmap.accept group = some ((window.accept group).1, next) ∧
        Depicts (window.accept group).2 next := by
  obtain rfl := hremembers.span_eq
  have hne : window.span ≠ 0 := by
    intro hzero
    rw [hzero, UInt32.toNat_zero] at hspan
    exact Nat.lt_irrefl 0 hspan
  have hbase : window.span.toNat ∣ window.base.toNat := by
    rw [hremembers.base_eq]
    exact Nat.dvd_mul_right _ _
  unfold GroupBitmap.accept
  dsimp only
  rw [h.base, h.span, if_neg hne]
  rcases hremembers.accept_cases hspan group with ⟨hbeyond, -, heq⟩ | ⟨hold, hlt, heq⟩ |
    ⟨hle, hnew, hlt, heq⟩ <;> rw [heq]
  · obtain ⟨marks, hmarks, hnext⟩ := h.move hspan group
    rw [if_pos hbeyond, hmarks]
    exact ⟨_, rfl, hnext⟩
  · rw [if_neg (Nat.not_le.mpr hlt)]
    by_cases hbelow : group < window.base
    · rw [if_pos hbelow]
      exact ⟨bitmap, rfl, h⟩
    · have hmem := (hremembers.mem_accepted group).mpr
        ⟨hold.resolve_left hbelow, UInt32.not_lt.mp hbelow⟩
      rw [if_neg hbelow, h.test group (UInt32.not_lt.mp hbelow) hlt, decide_eq_true hmem]
      exact ⟨bitmap, rfl, h⟩
  · have hout : group ∉ window.accepted := fun hmem ↦
      hnew ((hremembers.mem_accepted group).mp hmem).1
    obtain ⟨marks, hmarks, hnext⟩ := h.note hspan hbase hle hlt
    rw [if_neg (Nat.not_le.mpr hlt), if_neg (UInt32.not_lt.mpr hle), h.test group hle hlt,
      decide_eq_false hout]
    dsimp only
    rw [hmarks]
    rw [h.base] at hnext
    exact ⟨_, rfl, hnext⟩

theorem Depicts.run (h : Depicts window bitmap)
    (hremembers : GroupWindow.Remembers span history window) (hspan : 0 < span)
    (groups : List UInt32) : ∃ next,
      bitmap.run groups = some ((window.run groups).1, next) ∧
        Depicts (window.run groups).2 next := by
  induction groups generalizing window history bitmap with
  | nil => exact ⟨bitmap, rfl, h⟩
  | cons group rest ih =>
    obtain ⟨middle, haccept, hmiddle⟩ := h.accept hremembers hspan group
    obtain ⟨next, hrun, hnext⟩ := ih hmiddle (hremembers.accept hspan group)
    refine ⟨next, ?_, ?_⟩
    · rw [GroupBitmap.run, haccept]
      dsimp only
      rw [hrun]
      rfl
    · exact hnext

end GroupBitmap

namespace GroupWindow

/-- Whatever numbers come, a number is accepted exactly if it was not accepted before and does not
lie below the multiple of the span under the greatest number that was. So no number is accepted
twice, and one that has not come before is accepted unless it lies below the window. A bitmap with
one bit for each number of the window gives the same answers. -/
theorem accept_iff_of_run {size : UInt32} (hsize : size.toNat ≤ 4294967264)
    {groups history : List UInt32} {window : GroupWindow}
    (hrun : (empty size).run groups = (history, window)) :
    let span := max 32 ((size.toNat + 31) / 32 * 32)
    (∀ group, (window.accept group).1 = true ↔
        group ∉ history ∧ span * (greatest history / span) ≤ group.toNat) ∧
      history.Nodup ∧
      window.base.toNat = span * (greatest history / span) ∧
      (∀ group, group ∉ groups → window.base ≤ group → (window.accept group).1 = true) ∧
      ∃ bitmap, (GroupBitmap.empty size).run groups = some (history, bitmap) ∧
        ∀ group, (bitmap.accept group).map Prod.fst = some (window.accept group).1 := by
  intro span
  have hspan : 0 < span := Nat.lt_of_lt_of_le (by decide) (Nat.le_max_left 32 _)
  have hempty : Remembers span [] (empty size) := .empty (toNat_roundedSpan hsize)
  have hremembers := hempty.run hspan groups
  have hsubset := (empty size).run_subset groups
  obtain ⟨bitmap, hbitmap, hdepicts⟩ := (GroupBitmap.Depicts.empty hsize).run hempty hspan groups
  rw [hrun] at hremembers hsubset hbitmap hdepicts
  rw [List.append_nil] at hremembers
  have haccept := hremembers.accept_eq_true_iff hspan
  refine ⟨haccept, hremembers.distinct, hremembers.base_eq, fun group hnew hle ↦ ?_,
    bitmap, hbitmap, fun group ↦ ?_⟩
  · rw [haccept, ← hremembers.base_eq]
    exact ⟨fun hold ↦ hnew (hsubset hold), UInt32.le_iff_toNat_le.mp hle⟩
  · obtain ⟨next, hnext, -⟩ := hdepicts.accept hremembers hspan group
    rw [hnext, Option.map_some]

/-- The window moves twice, the second time to the end of the range, where it is the last one. -/
theorem accept_iff_of_run_end :
    ∃ window, (empty 1000).run [5, 1030, 5, 1023, 1024, 1030, 4294967295, 1025] =
        ([4294967295, 1024, 1030, 5], window) ∧
      (window.accept 4294966272).1 = true ∧ (window.accept 4294966271).1 = false ∧
      (window.accept 4294967295).1 = false := by
  have hrun : (empty 1000).run [5, 1030, 5, 1023, 1024, 1030, 4294967295, 1025] =
      ([4294967295, 1024, 1030, 5], ⟨1024, 4294966272, [4294967295], 0⟩) := by decide
  obtain ⟨haccept, -⟩ :=
    accept_iff_of_run (by decide : (1000 : UInt32).toNat ≤ 4294967264) hrun
  refine ⟨_, hrun, (haccept _).mpr (by decide), ?_, ?_⟩
  · exact Bool.eq_false_iff.mpr (mt (haccept _).mp (by decide))
  · exact Bool.eq_false_iff.mpr (mt (haccept _).mp (by decide))

end GroupWindow

end ReliableDatagram
