import Aesd.Semantics.Kernel
import Aesd.Semantics.Ring
import Aesd.Semantics.Segments
import Aesd.Semantics.Word

/-! The circular buffer of the driver: a ring of entries that point to
command strings. An entry is named by the index of its slot. -/
namespace Aesd
open Kernel Word

abbrev aesdcharMaxWriteOperationsSupported : Nat := 10

structure AesdBufferEntry where
  buffptr : Ptr
  size : Nat
  deriving DecidableEq, Repr

/-- An entry of a buffer that was set to zero. -/
def AesdBufferEntry.zero : AesdBufferEntry := ⟨.null, 0⟩

structure AesdCircularBuffer where
  entry : Vector AesdBufferEntry aesdcharMaxWriteOperationsSupported
  inOffs : Nat
  outOffs : Nat
  full : Bool
  deriving DecidableEq

namespace AesdCircularBuffer

/-- `entry[index]`. No index outside the array is used on a buffer whose
offsets are inside it; the value given here for such an index stands for
nothing. -/
def slot (buffer : AesdCircularBuffer) (index : Nat) : AesdBufferEntry :=
  buffer.entry[index]?.getD .zero

def setSlot (buffer : AesdCircularBuffer) (index : Nat) (entry : AesdBufferEntry) : AesdCircularBuffer :=
  { buffer with entry := buffer.entry.setIfInBounds index entry }

/-- How many slots are occupied, counted from `outOffs` on. -/
def count (buffer : AesdCircularBuffer) : Nat :=
  if buffer.full then aesdcharMaxWriteOperationsSupported
  else (buffer.inOffs + aesdcharMaxWriteOperationsSupported - buffer.outOffs) %
    aesdcharMaxWriteOperationsSupported

/-- The occupied entries, oldest first. -/
def entries (buffer : AesdCircularBuffer) : List AesdBufferEntry :=
  Ring.window aesdcharMaxWriteOperationsSupported buffer.slot buffer.outOffs buffer.count

end AesdCircularBuffer

def aesdCircularBufferInit : AesdCircularBuffer :=
  ⟨Vector.replicate aesdcharMaxWriteOperationsSupported .zero, 0, 0, false⟩

/-- The offsets are bytes, and an offset that reaches the capacity is set
back to zero. -/
def nextOffs (offs : Nat) : Nat :=
  let advanced := (offs + 1) % 256
  if advanced = aesdcharMaxWriteOperationsSupported then 0 else advanced

/-- Add an entry; on a full buffer the oldest entry is overwritten and its
pointer returned. The guard against a capacity of zero never holds. -/
def aesdCircularBufferAddEntry (buffer : AesdCircularBuffer) (addEntry : AesdBufferEntry) :
    Ptr × AesdCircularBuffer :=
  let value := if buffer.full then (buffer.slot buffer.outOffs).buffptr else .null
  let outOffs := if buffer.full then nextOffs buffer.outOffs else buffer.outOffs
  let stored := buffer.setSlot buffer.inOffs addEntry
  let inOffs := nextOffs buffer.inOffs
  (value, { stored with
    inOffs, outOffs, full := if inOffs = outOffs then true else buffer.full })

/-- The do-while loop of the lookup. From the second round on the current
offset runs through the residues of the capacity, so it comes to an `inOffs`
inside the array within as many rounds as there are slots. It does not come to
one behind the array, which is there between two statements of the insertion:
the source then goes around until the growing total is past the position,
and here the loop is cut off after these rounds. -/
def findLoop (buffer : AesdCircularBuffer) (charOffset : Nat) :
    Nat → Nat → Nat → Except Stop (Option (Nat × Nat))
  | 0, _, _ => .error .spin
  | rounds + 1, totalChars, currentOffset =>
      let size := (buffer.slot currentOffset).size
      if unsigned64 (totalChars + size) > charOffset then
        .ok (some (currentOffset, unsigned64 (charOffset - totalChars)))
      else
        let nextOffset := (currentOffset + 1) % aesdcharMaxWriteOperationsSupported
        if nextOffset ≠ buffer.inOffs then
          findLoop buffer charOffset rounds (unsigned64 (totalChars + size)) nextOffset
        else .ok none

/-- The slot and the offset inside its entry that a position falls in, or
nothing where the buffer has not enough data. The source stores the offset
through a pointer, right before it returns the entry and nowhere else. -/
def aesdCircularBufferFindEntryOffsetForFpos (buffer : AesdCircularBuffer) (charOffset : Nat) :
    Except Stop (Option (Nat × Nat)) :=
  findLoop buffer charOffset aesdcharMaxWriteOperationsSupported 0 buffer.outOffs

/-- What the offsets and the flag say after `count` entries were added: slots
are filled from index zero on, and the others are still zero. -/
structure Counted (buffer : AesdCircularBuffer) (count : Nat) : Prop where
  inOffs : buffer.inOffs = count % aesdcharMaxWriteOperationsSupported
  outOffs : buffer.outOffs =
    (count - aesdcharMaxWriteOperationsSupported) % aesdcharMaxWriteOperationsSupported
  full : buffer.full = decide (aesdcharMaxWriteOperationsSupported ≤ count)
  vacant : ∀ index, count ≤ index → index < aesdcharMaxWriteOperationsSupported →
    buffer.slot index = .zero

variable {buffer : AesdCircularBuffer} {entry added : AesdBufferEntry} {count index : Nat}

namespace AesdCircularBuffer

theorem slot_setSlot (h : index < aesdcharMaxWriteOperationsSupported) (other : Nat) :
    (buffer.setSlot index entry).slot other = if other = index then entry else buffer.slot other := by
  by_cases hSame : other = index
  · subst hSame
    simp [slot, setSlot, h]
  · simp [slot, setSlot, Ne.symm hSame, hSame]

end AesdCircularBuffer

theorem nextOffs_eq {offs : Nat} (h : offs < aesdcharMaxWriteOperationsSupported) :
    nextOffs offs = (offs + 1) % aesdcharMaxWriteOperationsSupported := by
  unfold nextOffs
  simp only [aesdcharMaxWriteOperationsSupported] at h ⊢
  split <;> omega

theorem slot_init (index : Nat) : aesdCircularBufferInit.slot index = .zero := by
  by_cases h : index < aesdcharMaxWriteOperationsSupported
  · simp [AesdCircularBuffer.slot, aesdCircularBufferInit, h]
  · simp [AesdCircularBuffer.slot, aesdCircularBufferInit, Nat.le_of_not_lt h]

theorem counted_init : Counted aesdCircularBufferInit 0 where
  inOffs := rfl
  outOffs := rfl
  full := rfl
  vacant := fun index _ _ => slot_init index

namespace Counted

theorem inOffs_lt (h : Counted buffer count) : buffer.inOffs < aesdcharMaxWriteOperationsSupported := by
  rw [h.inOffs]
  exact Nat.mod_lt _ (by decide)

theorem outOffs_lt (h : Counted buffer count) : buffer.outOffs < aesdcharMaxWriteOperationsSupported := by
  rw [h.outOffs]
  exact Nat.mod_lt _ (by decide)

theorem full_iff (h : Counted buffer count) :
    buffer.full = true ↔ aesdcharMaxWriteOperationsSupported ≤ count := by
  rw [h.full, decide_eq_true_iff]

/-- On a full buffer the next slot to write is the oldest one. -/
theorem inOffs_eq_outOffs (h : Counted buffer count) (hFull : buffer.full = true) :
    buffer.inOffs = buffer.outOffs := by
  have hCount := h.full_iff.mp hFull
  rw [h.inOffs, h.outOffs]
  simp only [aesdcharMaxWriteOperationsSupported] at hCount ⊢
  omega

theorem count_eq (h : Counted buffer count) :
    buffer.count = min count aesdcharMaxWriteOperationsSupported := by
  unfold AesdCircularBuffer.count
  split
  · next hFull =>
    exact (Nat.min_eq_right (h.full_iff.mp hFull)).symm
  · next hSpace =>
    have hCount := mt h.full_iff.mpr hSpace
    rw [h.inOffs, h.outOffs]
    simp only [aesdcharMaxWriteOperationsSupported] at hCount ⊢
    omega

/-- Adding an entry writes the slot of its number and moves the offsets on. -/
theorem addEntry (h : Counted buffer count) :
    Counted (aesdCircularBufferAddEntry buffer added).2 (count + 1) ∧
    ∀ index, (aesdCircularBufferAddEntry buffer added).2.slot index =
      if index = count % aesdcharMaxWriteOperationsSupported then added else buffer.slot index := by
  have hSlot : ∀ index, (aesdCircularBufferAddEntry buffer added).2.slot index =
      if index = count % aesdcharMaxWriteOperationsSupported then added else buffer.slot index := by
    intro index
    rw [← h.inOffs]
    exact AesdCircularBuffer.slot_setSlot h.inOffs_lt index
  have hIn : nextOffs buffer.inOffs = (count + 1) % aesdcharMaxWriteOperationsSupported := by
    rw [nextOffs_eq h.inOffs_lt, h.inOffs, Nat.mod_add_mod]
  have hOut : (if buffer.full then nextOffs buffer.outOffs else buffer.outOffs) =
      (count + 1 - aesdcharMaxWriteOperationsSupported) % aesdcharMaxWriteOperationsSupported := by
    split
    · next hFull =>
      have hCount := h.full_iff.mp hFull
      rw [nextOffs_eq h.outOffs_lt, h.outOffs, Nat.mod_add_mod]
      congr 1
      omega
    · next hSpace =>
      have hCount := mt h.full_iff.mpr hSpace
      rw [h.outOffs]
      simp only [aesdcharMaxWriteOperationsSupported] at hCount ⊢
      omega
  refine ⟨⟨hIn, hOut, ?_, ?_⟩, hSlot⟩
  · have hFlag : (aesdCircularBufferAddEntry buffer added).2.full =
        if nextOffs buffer.inOffs = (if buffer.full then nextOffs buffer.outOffs else buffer.outOffs)
          then true else buffer.full := rfl
    rw [hFlag, hIn, hOut, h.full]
    simp only [aesdcharMaxWriteOperationsSupported]
    split
    · simp only [Bool.true_eq, decide_eq_true_eq]
      omega
    · simp only [decide_eq_decide]
      omega
  · intro index hIndex hBound
    rw [hSlot, if_neg, h.vacant index (by omega) hBound]
    rw [Nat.mod_eq_of_lt (by omega)]
    omega

/-- The occupied entries in ring order are the last ones of any list that
the slots hold. -/
theorem entries_map {γ : Type} {items : List γ} (h : Counted buffer items.length)
    {f : AesdBufferEntry → γ}
    (hHolds : Ring.Holds aesdcharMaxWriteOperationsSupported (f ∘ buffer.slot) items) :
    buffer.entries.map f = items.rtake aesdcharMaxWriteOperationsSupported := by
  rw [AesdCircularBuffer.entries, Ring.window_map, h.outOffs, h.count_eq]
  exact hHolds.window

/-- The same walk, without reading anything from the entries. -/
theorem entries_eq (h : Counted buffer count) :
    buffer.entries = Ring.window aesdcharMaxWriteOperationsSupported buffer.slot buffer.outOffs
      (min count aesdcharMaxWriteOperationsSupported) := by
  rw [AesdCircularBuffer.entries, h.count_eq]

end Counted

/-- The loop gives an offset or comes to no end; it waits for nothing and
touches no entry. -/
theorem findLoop_error {charOffset rounds totalChars currentOffset : Nat} {stop : Stop}
    (h : findLoop buffer charOffset rounds totalChars currentOffset = .error stop) : stop = .spin := by
  induction rounds generalizing totalChars currentOffset with
  | zero =>
      cases h
      rfl
  | succ rounds ih =>
      rw [findLoop] at h
      dsimp only at h
      split at h
      · cases h
      · split at h
        · exact ih h
        · cases h

/-- An offset that is found lies inside its entry, even where the total has
wrapped on the way. -/
theorem findLoop_inside {charOffset rounds totalChars currentOffset offset : Nat} (hOffset : charOffset < 2 ^ 64)
    (hBefore : totalChars ≤ charOffset)
    (h : findLoop buffer charOffset rounds totalChars currentOffset = .ok (some (index, offset))) :
    offset < (buffer.slot index).size := by
  induction rounds generalizing totalChars currentOffset with
  | zero => cases h
  | succ rounds ih =>
      have hSum : unsigned64 (totalChars + (buffer.slot currentOffset).size) ≤
          totalChars + (buffer.slot currentOffset).size := by
        rw [← Int.natCast_add, unsigned64_natCast]
        exact Nat.mod_le _ _
      rw [findLoop] at h
      dsimp only at h
      split at h
      · next hInside =>
        have hRest : unsigned64 (charOffset - totalChars) = charOffset - totalChars := by
          rw [show (charOffset : Int) - totalChars = (charOffset - totalChars : Nat) by omega]
          exact unsigned64_of_lt (by omega)
        rw [Except.ok.injEq, Option.some.injEq, Prod.mk.injEq, hRest] at h
        obtain ⟨rfl, rfl⟩ := h
        omega
      · next hBehind =>
        split at h
        · exact ih (Nat.le_of_not_lt hBehind) h
        · cases h

/-- The loop looks at the sizes of the entries and at `inOffs` only. -/
theorem findLoop_congr {other : AesdCircularBuffer} {charOffset rounds totalChars currentOffset : Nat}
    (hIn : other.inOffs = buffer.inOffs) (hSize : ∀ index, (other.slot index).size = (buffer.slot index).size) :
    findLoop other charOffset rounds totalChars currentOffset =
      findLoop buffer charOffset rounds totalChars currentOffset := by
  induction rounds generalizing totalChars currentOffset with
  | zero => rfl
  | succ rounds ih => simp only [findLoop, hIn, hSize, ih]

/-- The sizes met on the way from one slot over the next `count` ones. -/
private def sizesFrom (buffer : AesdCircularBuffer) (first count : Nat) : List Nat :=
  (Ring.window aesdcharMaxWriteOperationsSupported buffer.slot first count).map AesdBufferEntry.size

private theorem sizesFrom_succ (first count : Nat) :
    sizesFrom buffer first (count + 1) =
      (buffer.slot (first % aesdcharMaxWriteOperationsSupported)).size ::
        sizesFrom buffer ((first + 1) % aesdcharMaxWriteOperationsSupported) count := by
  simp only [sizesFrom, Ring.window, List.range_succ_eq_map, List.map_cons, List.map_map,
    Nat.add_zero, List.cons.injEq, true_and]
  apply List.map_congr_left
  intro step _
  simp only [Function.comp_apply, Nat.mod_add_mod]
  congr 3
  omega

/-- The loop looks its position up in the sizes of the slots that are left,
`remaining` of them up to the slot of the next write. -/
private theorem findLoop_eq (remaining : Nat) (charOffset : Nat) :
    ∀ rounds totalChars currentOffset, 0 < remaining → remaining ≤ rounds →
      remaining ≤ aesdcharMaxWriteOperationsSupported →
      currentOffset < aesdcharMaxWriteOperationsSupported →
      (currentOffset + remaining) % aesdcharMaxWriteOperationsSupported = buffer.inOffs →
      totalChars + (sizesFrom buffer currentOffset remaining).sum < 2 ^ 64 →
      totalChars ≤ charOffset → charOffset < 2 ^ 64 →
      findLoop buffer charOffset rounds totalChars currentOffset =
        .ok ((Segments.locate (sizesFrom buffer currentOffset remaining) (charOffset - totalChars)).map
          fun found => ((currentOffset + found.1) % aesdcharMaxWriteOperationsSupported, found.2)) := by
  induction remaining with
  | zero => simp
  | succ remaining ih =>
      intro rounds totalChars currentOffset _ hRounds hCapacity hCurrent hEnd hTotal hBefore hOffset
      obtain ⟨rounds, rfl⟩ : ∃ more, rounds = more + 1 := ⟨rounds - 1, by omega⟩
      rw [sizesFrom_succ, Nat.mod_eq_of_lt hCurrent, List.sum_cons] at hTotal
      rw [sizesFrom_succ, Nat.mod_eq_of_lt hCurrent, Segments.locate, findLoop]
      have hSum : unsigned64 (totalChars + (buffer.slot currentOffset).size) =
          totalChars + (buffer.slot currentOffset).size := by
        exact_mod_cast unsigned64_of_lt (by omega)
      have hRest : unsigned64 (charOffset - totalChars) = charOffset - totalChars := by
        rw [show (charOffset : Int) - totalChars = (charOffset - totalChars : Nat) by omega]
        exact unsigned64_of_lt (by omega)
      simp only [hSum, hRest]
      by_cases hInside : charOffset - totalChars < (buffer.slot currentOffset).size
      · rw [if_pos (by omega), if_pos hInside]
        simp [Nat.mod_eq_of_lt hCurrent]
      · rw [if_neg (by omega), if_neg hInside, Option.map_map]
        by_cases hLast : remaining = 0
        · subst hLast
          rw [if_neg (by simpa using hEnd)]
          simp [sizesFrom, Ring.window, Segments.locate]
        · have hMore : (currentOffset + 1) % aesdcharMaxWriteOperationsSupported ≠ buffer.inOffs := by
            rw [← hEnd]
            simp only [aesdcharMaxWriteOperationsSupported] at hCurrent hCapacity ⊢
            omega
          have hNextOffset := ih rounds (totalChars + (buffer.slot currentOffset).size)
            ((currentOffset + 1) % aesdcharMaxWriteOperationsSupported) (by omega) (by omega) (by omega)
            (Nat.mod_lt _ (by decide)) (by rw [Nat.mod_add_mod, ← hEnd]; congr 1; omega)
            (by omega) (by omega) hOffset
          rw [if_pos hMore, hNextOffset, Nat.sub_sub]
          congr 3
          funext found
          simp only [Function.comp_apply, Nat.mod_add_mod, Prod.mk.injEq, and_true]
          congr 1
          omega

private theorem sizesFrom_vacant (h : Counted buffer 0) (first count : Nat) :
    (sizesFrom buffer first count).sum = 0 := by
  apply List.sum_eq_zero
  intro size hSize
  obtain ⟨entry, hEntry, rfl⟩ := List.mem_map.mp hSize
  obtain ⟨step, _, rfl⟩ := List.mem_map.mp hEntry
  rw [h.vacant _ (Nat.zero_le _) (Nat.mod_lt _ (by decide))]
  rfl

/-- The lookup is indexing into the concatenated entries, oldest first. The
walk ends on the empty buffer too, where it goes once around the ring. -/
theorem find_eq (h : Counted buffer count) {charOffset : Nat} (hOffset : charOffset < 2 ^ 64)
    (hTotal : (buffer.entries.map AesdBufferEntry.size).sum < 2 ^ 64) :
    aesdCircularBufferFindEntryOffsetForFpos buffer charOffset =
      .ok ((Segments.locate (buffer.entries.map AesdBufferEntry.size) charOffset).map fun found =>
        ((buffer.outOffs + found.1) % aesdcharMaxWriteOperationsSupported, found.2)) := by
  have hEntries := h.entries_eq
  rcases Nat.eq_zero_or_pos count with rfl | hCount
  · have hNone : Segments.locate (sizesFrom buffer buffer.outOffs aesdcharMaxWriteOperationsSupported)
        (charOffset - 0) = none := by
      rw [Segments.locate_eq_none_iff, sizesFrom_vacant h]
      exact Nat.zero_le _
    have hWalk := findLoop_eq aesdcharMaxWriteOperationsSupported charOffset
      aesdcharMaxWriteOperationsSupported 0 buffer.outOffs (by decide) le_rfl le_rfl h.outOffs_lt
      (by rw [h.outOffs, h.inOffs]; rfl) (by rw [sizesFrom_vacant h]; decide) (Nat.zero_le _) hOffset
    rw [aesdCircularBufferFindEntryOffsetForFpos, hWalk, hNone, hEntries]
    rfl
  · have hSizes : sizesFrom buffer buffer.outOffs (min count aesdcharMaxWriteOperationsSupported) =
        buffer.entries.map AesdBufferEntry.size := by
      rw [hEntries, sizesFrom]
    have hWalk := findLoop_eq (min count aesdcharMaxWriteOperationsSupported) charOffset
      aesdcharMaxWriteOperationsSupported 0 buffer.outOffs (Nat.lt_min.mpr ⟨hCount, by decide⟩) (Nat.min_le_right _ _)
      (Nat.min_le_right _ _) h.outOffs_lt
      (by
        rw [h.outOffs, h.inOffs]
        simp only [aesdcharMaxWriteOperationsSupported]
        omega)
      (by rwa [hSizes, Nat.zero_add]) (Nat.zero_le _) hOffset
    rw [aesdCircularBufferFindEntryOffsetForFpos, hWalk, hSizes, Nat.sub_zero]

/-- The same for any number of slots up to the one that is written next,
whatever has been stored in them. -/
theorem find_walk {walked charOffset : Nat} (hOut : buffer.outOffs < aesdcharMaxWriteOperationsSupported)
    (hSome : 0 < walked) (hFew : walked ≤ aesdcharMaxWriteOperationsSupported)
    (hIn : buffer.inOffs = (buffer.outOffs + walked) % aesdcharMaxWriteOperationsSupported)
    (hOffset : charOffset < 2 ^ 64)
    (hTotal : ((Ring.window aesdcharMaxWriteOperationsSupported buffer.slot buffer.outOffs walked).map
      AesdBufferEntry.size).sum < 2 ^ 64) :
    aesdCircularBufferFindEntryOffsetForFpos buffer charOffset =
      .ok ((Segments.locate ((Ring.window aesdcharMaxWriteOperationsSupported buffer.slot buffer.outOffs walked).map
        AesdBufferEntry.size) charOffset).map fun found =>
          ((buffer.outOffs + found.1) % aesdcharMaxWriteOperationsSupported, found.2)) :=
  findLoop_eq walked charOffset aesdcharMaxWriteOperationsSupported 0 buffer.outOffs hSome hFew hFew hOut hIn.symm
    (by rwa [Nat.zero_add]) (Nat.zero_le _) hOffset

end Aesd
