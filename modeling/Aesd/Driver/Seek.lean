import Aesd.Driver.ReadBack

/-! Seeking to a command by its number. The seek call counts the slots from
index zero on, the lookup of a read counts them from `outOffs` on. -/
namespace Aesd
open Kernel Word Memory Execution CommandLog

namespace AesdCircularBuffer

/-- The sizes of the first slots of the array, as the seek call adds them up. -/
def sizesByIndex (buffer : AesdCircularBuffer) (count : Nat) : Nat :=
  ((List.range count).map fun index => (buffer.slot index).size).sum

/-- The sizes of the oldest entries, as the lookup of a read adds them up. -/
def sizesByAge (buffer : AesdCircularBuffer) (count : Nat) : Nat :=
  ((List.range count).map fun age =>
    (buffer.slot ((buffer.outOffs + age) % aesdcharMaxWriteOperationsSupported)).size).sum

end AesdCircularBuffer

/-- A seek call that gets the lock and whose argument can be copied. -/
def seekCall (seekCmd : AesdSeekto) (stray : AesdBufferEntry) : IoctlCall :=
  ⟨AESDCHAR_IOCSEEKTO, some seekCmd, false, stray⟩

/-- The seek succeeds, the lookup then finds the byte that it named of the
command that it named, counted from the oldest, and a read starts there. -/
def SeekAgrees (world : World) (seekCmd : AesdSeekto) (command : List Byte) : Prop :=
  ∀ stray filp, ∃ after, aesdIoctl (seekCall seekCmd stray) world filp = .ok (0, world, after) ∧
    aesdCircularBufferFindEntryOffsetForFpos world.dev.aesdCb (unsigned64 after.fPos) =
      .ok (some ((world.dev.aesdCb.outOffs + seekCmd.writeCmd.toNat) %
        aesdcharMaxWriteOperationsSupported, seekCmd.writeCmdOffset.toNat)) ∧
    ∀ count, 0 < count → ∃ final, aesdRead ⟨true, count, false⟩ world after =
      .ok (((command.drop seekCmd.writeCmdOffset.toNat).take count).length,
        (command.drop seekCmd.writeCmdOffset.toNat).take count, final)

variable {world : World} {commands : List (List Byte)} {buffer : AesdCircularBuffer}
  {seekCmd : AesdSeekto} {stray : AesdBufferEntry} {filp : File} {entryAt : Nat → AesdBufferEntry}

theorem sizesByAge_eq {count : Nat} (h : RingHolds world commands)
    (hCount : count ≤ (commands.rtake aesdcharMaxWriteOperationsSupported).length) :
    world.dev.aesdCb.sizesByAge count =
      (((commands.rtake aesdcharMaxWriteOperationsSupported).map List.length).take count).sum := by
  have hLength : world.dev.aesdCb.count = (commands.rtake aesdcharMaxWriteOperationsSupported).length := by
    have := congrArg List.length h.sizes
    simpa [AesdCircularBuffer.entries] using this
  rw [← h.sizes, AesdCircularBuffer.entries, Ring.window_map, hLength, Ring.window, ← List.map_take,
    List.take_range, Nat.min_eq_left hCount]
  rfl

theorem sizesByIndex_succ (count : Nat) :
    buffer.sizesByIndex (count + 1) = buffer.sizesByIndex count + (buffer.slot count).size := by
  simp [AesdCircularBuffer.sizesByIndex, List.range_succ]

theorem sizesByAge_succ (count : Nat) :
    buffer.sizesByAge (count + 1) = buffer.sizesByAge count +
      (buffer.slot ((buffer.outOffs + count) % aesdcharMaxWriteOperationsSupported)).size := by
  simp [AesdCircularBuffer.sizesByAge, List.range_succ]

theorem sizesByIndex_mono {first second : Nat} (h : first ≤ second) :
    buffer.sizesByIndex first ≤ buffer.sizesByIndex second := by
  induction second, h using Nat.le_induction with
  | base => exact Nat.le_refl _
  | succ second _ ih =>
      rw [sizesByIndex_succ]
      omega

/-- While nothing has been overwritten, the two ways to count agree. -/
theorem sizesByAge_of_outOffs {count : Nat} (hOut : buffer.outOffs = 0)
    (hCount : count ≤ aesdcharMaxWriteOperationsSupported) :
    buffer.sizesByAge count = buffer.sizesByIndex count := by
  unfold AesdCircularBuffer.sizesByAge AesdCircularBuffer.sizesByIndex
  congr 1
  apply List.map_congr_left
  intro age hAge
  rw [hOut, Nat.zero_add, Nat.mod_eq_of_lt (Nat.lt_of_lt_of_le (List.mem_range.mp hAge) hCount)]

/-- All slots together have one size, in whatever order they are met. -/
theorem sizesByAge_all : buffer.sizesByAge aesdcharMaxWriteOperationsSupported =
    buffer.sizesByIndex aesdcharMaxWriteOperationsSupported := by
  have hZero : Ring.window aesdcharMaxWriteOperationsSupported (AesdBufferEntry.size ∘ buffer.slot) 0
      aesdcharMaxWriteOperationsSupported =
        (List.range aesdcharMaxWriteOperationsSupported).map fun index => (buffer.slot index).size := by
    apply List.map_congr_left
    intro index hIndex
    rw [Nat.zero_add, Nat.mod_eq_of_lt (List.mem_range.mp hIndex)]
    rfl
  have hRotate := @Ring.window_rotate _ aesdcharMaxWriteOperationsSupported buffer.outOffs
    (AesdBufferEntry.size ∘ buffer.slot)
  rw [hZero] at hRotate
  calc buffer.sizesByAge aesdcharMaxWriteOperationsSupported
      = (((List.range aesdcharMaxWriteOperationsSupported).map fun index =>
          (buffer.slot index).size).rotate buffer.outOffs).sum := congrArg List.sum hRotate
    _ = buffer.sizesByIndex aesdcharMaxWriteOperationsSupported :=
          (List.rotate_perm _ _).sum_eq

/-- Over populated slots the loop adds up their sizes. -/
theorem sumLoop_populated {left index : Nat} {start : Int}
    (h : ∀ step, step < left → (entryAt (index + step)).populated = true) :
    sumLoop entryAt left index (signed64 start) =
      (0, signed64 (start + ((List.range left).map fun step => (entryAt (index + step)).size).sum)) := by
  induction left generalizing index start with
  | zero => simp [sumLoop]
  | succ left ih =>
      have hFirst : (entryAt index).populated = true := h 0 (Nat.succ_pos left)
      have hRest := @ih (index + 1) (start + (entryAt index).size) fun step hStep => by
        rw [Nat.add_assoc, Nat.add_comm 1]
        exact h (step + 1) (Nat.succ_lt_succ hStep)
      rw [sumLoop, if_pos hFirst, signed64_signed64_add, hRest, List.range_succ_eq_map, List.map_cons,
        List.sum_cons, List.map_map]
      simp only [Nat.add_zero, Int.natCast_add, Function.comp_def, Nat.succ_eq_add_one, Nat.add_assoc,
        Nat.add_comm 1, Int.add_assoc]

theorem RingHolds.populated {index : Nat} (h : RingHolds world commands)
    (hIndex : index < (commands.rtake aesdcharMaxWriteOperationsSupported).length) :
    (world.dev.aesdCb.slot index).populated = true := by
  rw [Ring.rtake_length] at hIndex
  obtain ⟨command, hCommand, id, hSlot, _⟩ := h.occupied (show index < _ by omega) (show index < _ by omega)
  rw [hSlot]
  simp [AesdBufferEntry.populated, List.length_pos_of_ne_nil (h.nonempty command hCommand)]

/-- What the seek call does with the number of a stored command. -/
theorem aesdIoctl_stored (h : RingHolds world commands) (hLock : world.dev.mxLock = false)
    (hCmd : seekCmd.writeCmd.toNat < (commands.rtake aesdcharMaxWriteOperationsSupported).length) :
    aesdIoctl (seekCall seekCmd stray) world filp =
      if (world.dev.aesdCb.slot seekCmd.writeCmd.toNat).size < seekCmd.writeCmdOffset.toNat then
        .ok (-EINVAL, world, filp)
      else .ok (0, world, ⟨signed64 (world.dev.aesdCb.sizesByIndex seekCmd.writeCmd.toNat +
        seekCmd.writeCmdOffset.toNat)⟩) := by
  have hSlots : (commands.rtake aesdcharMaxWriteOperationsSupported).length ≤
      aesdcharMaxWriteOperationsSupported := by
    rw [Ring.rtake_length]
    exact Nat.min_le_right _ _
  have hEntry : ∀ index, index ≤ seekCmd.writeCmd.toNat →
      (seekCall seekCmd stray).entryAt world.dev.aesdCb index = world.dev.aesdCb.slot index := by
    intro index hIndex
    rw [IoctlCall.entryAt, if_pos (by omega)]
  have hSum := @sumLoop_populated ((seekCall seekCmd stray).entryAt world.dev.aesdCb)
    seekCmd.writeCmd.toNat 0 0 fun step hStep => by
      rw [hEntry _ (by omega), Nat.zero_add]
      exact h.populated (by omega)
  have hSizes : (List.range seekCmd.writeCmd.toNat).map (fun step =>
      ((seekCall seekCmd stray).entryAt world.dev.aesdCb (0 + step)).size) =
        (List.range seekCmd.writeCmd.toNat).map fun index => (world.dev.aesdCb.slot index).size := by
    apply List.map_congr_left
    intro index hIndex
    rw [Nat.zero_add, hEntry index (Nat.le_of_lt (List.mem_range.mp hIndex))]
  rw [hSizes, Int.zero_add] at hSum
  have hSeek : seekTo ((seekCall seekCmd stray).entryAt world.dev.aesdCb) seekCmd filp =
      if (world.dev.aesdCb.slot seekCmd.writeCmd.toNat).size < seekCmd.writeCmdOffset.toNat then
        (-EINVAL, filp)
      else (0, ⟨signed64 (world.dev.aesdCb.sizesByIndex seekCmd.writeCmd.toNat +
        seekCmd.writeCmdOffset.toNat)⟩) := by
    have hZero : signed64 0 = 0 := rfl
    rw [hZero] at hSum
    simp only [seekTo, hSum, hEntry _ (Nat.le_refl _), h.populated hCmd, ↓reduceIte,
      signed64_signed64_add]
    rfl
  have hRun := @aesdIoctl_sought world filp (seekCall seekCmd stray) seekCmd rfl rfl (by omega) rfl hLock
  rw [hRun, hSeek]
  split <;> rfl

/-- While fewer than ten commands were written, none was overwritten. -/
theorem RingHolds.outOffs_or_full (h : RingHolds world commands) :
    world.dev.aesdCb.outOffs = 0 ∨
      (commands.rtake aesdcharMaxWriteOperationsSupported).length = aesdcharMaxWriteOperationsSupported := by
  rw [Ring.rtake_length, h.counted.outOffs]
  rcases Nat.lt_or_ge commands.length aesdcharMaxWriteOperationsSupported with hFew | hMany
  · left
    rw [Nat.sub_eq_zero_of_le (Nat.le_of_lt hFew), Nat.zero_mod]
  · right
    exact Nat.min_eq_right hMany

theorem sizesByIndex_stored (h : RingHolds world commands) :
    world.dev.aesdCb.sizesByIndex (commands.rtake aesdcharMaxWriteOperationsSupported).length =
      (commands.rtake aesdcharMaxWriteOperationsSupported).flatten.length := by
  have hAge := sizesByAge_eq h (Nat.le_refl _)
  rw [List.take_of_length_le (by simp), Segments.sum_map_length] at hAge
  rw [← hAge]
  rcases h.outOffs_or_full with hOut | hFull
  · exact (sizesByAge_of_outOffs hOut (by rw [Ring.rtake_length]; exact Nat.min_le_right _ _)).symm
  · rw [hFull]
    exact sizesByAge_all.symm

/-- The lookup designates a byte of a stored command at one position only. -/
theorem find_stored_iff {age offset position : Nat} (h : RingHolds world commands)
    (hSize : (commands.rtake aesdcharMaxWriteOperationsSupported).flatten.length < 2 ^ 64)
    (hAge : age < (commands.rtake aesdcharMaxWriteOperationsSupported).length)
    (hOffset : offset < (commands.rtake aesdcharMaxWriteOperationsSupported)[age].length)
    (hPosition : position < 2 ^ 64) :
    aesdCircularBufferFindEntryOffsetForFpos world.dev.aesdCb position =
        .ok (some ((world.dev.aesdCb.outOffs + age) % aesdcharMaxWriteOperationsSupported, offset)) ↔
      world.dev.aesdCb.sizesByAge age + offset = position := by
  have hFind := find_eq h.counted hPosition (by rw [h.sizes, Segments.sum_map_length]; exact hSize)
  rw [h.sizes] at hFind
  have hSlots := @Ring.rtake_length _ aesdcharMaxWriteOperationsSupported commands
  rw [hFind, sizesByAge_eq h (Nat.le_of_lt hAge), Except.ok.injEq, Option.map_eq_some_iff]
  constructor
  · rintro ⟨⟨index, found⟩, hLocate, hSame⟩
    simp only [Prod.mk.injEq] at hSame
    obtain ⟨hSlot, rfl⟩ := hSame
    obtain ⟨hIndex, _, hSum⟩ := Segments.locate_eq_some_iff.mp hLocate
    rw [List.length_map] at hIndex
    simp only [aesdcharMaxWriteOperationsSupported] at hSlot hIndex hSlots hAge
    obtain rfl : index = age := by omega
    exact hSum
  · intro hSum
    refine ⟨(age, offset), Segments.locate_eq_some_iff.mpr ⟨by simpa using hAge, ?_, hSum⟩, rfl⟩
    rw [List.getElem_map]
    exact hOffset

/-- An offset inside the slot moves the file to one position, that of the
sizes by index, which fits its word. -/
theorem aesdIoctl_lands (h : RingHolds world commands) (hLock : world.dev.mxLock = false)
    (hSize : (commands.rtake aesdcharMaxWriteOperationsSupported).flatten.length < 2 ^ 64)
    (hCmd : seekCmd.writeCmd.toNat < (commands.rtake aesdcharMaxWriteOperationsSupported).length)
    (hInside : seekCmd.writeCmdOffset.toNat ≤ (world.dev.aesdCb.slot seekCmd.writeCmd.toNat).size) :
    ∃ position after, position = world.dev.aesdCb.sizesByIndex seekCmd.writeCmd.toNat +
        seekCmd.writeCmdOffset.toNat ∧ position < 2 ^ 64 ∧ unsigned64 (after : File).fPos = position ∧
      ∀ stray filp, aesdIoctl (seekCall seekCmd stray) world filp = .ok (0, world, after) := by
  have hNext := @sizesByIndex_succ world.dev.aesdCb seekCmd.writeCmd.toNat
  have hMono := @sizesByIndex_mono world.dev.aesdCb (seekCmd.writeCmd.toNat + 1) _ hCmd
  rw [sizesByIndex_stored h] at hMono
  have hFits : world.dev.aesdCb.sizesByIndex seekCmd.writeCmd.toNat +
      seekCmd.writeCmdOffset.toNat < 2 ^ 64 := by omega
  refine ⟨_, ⟨signed64 (world.dev.aesdCb.sizesByIndex seekCmd.writeCmd.toNat +
    seekCmd.writeCmdOffset.toNat)⟩, rfl, hFits, ?_, fun stray filp => ?_⟩
  · rw [unsigned64_signed64]
    exact_mod_cast unsigned64_of_lt hFits
  · rw [aesdIoctl_stored h hLock hCmd, if_neg (Nat.not_lt_of_le hInside)]

/-- Seek and read agree on a byte of a stored command exactly when the slots
before it by index are as large as the entries before it by age. -/
theorem seekAgrees_stored_iff (h : RingHolds world commands) (hLock : world.dev.mxLock = false)
    (hSize : (commands.rtake aesdcharMaxWriteOperationsSupported).flatten.length < 2 ^ 64)
    (hCmd : seekCmd.writeCmd.toNat < (commands.rtake aesdcharMaxWriteOperationsSupported).length)
    (hOffset : seekCmd.writeCmdOffset.toNat <
      (commands.rtake aesdcharMaxWriteOperationsSupported)[seekCmd.writeCmd.toNat].length) :
    SeekAgrees world seekCmd
        (commands.rtake aesdcharMaxWriteOperationsSupported)[seekCmd.writeCmd.toNat] ↔
      world.dev.aesdCb.sizesByIndex seekCmd.writeCmd.toNat =
          world.dev.aesdCb.sizesByAge seekCmd.writeCmd.toNat ∧
        seekCmd.writeCmdOffset.toNat ≤ (world.dev.aesdCb.slot seekCmd.writeCmd.toNat).size := by
  by_cases hInside : seekCmd.writeCmdOffset.toNat ≤ (world.dev.aesdCb.slot seekCmd.writeCmd.toNat).size
  · obtain ⟨position, after, hPosition, hFits, hAfter, hIoctl⟩ :=
      aesdIoctl_lands h hLock hSize hCmd hInside
    have hFind := find_stored_iff h hSize hCmd hOffset hFits
    rw [and_iff_left hInside]
    constructor
    · intro hAgrees
      obtain ⟨target, hTarget, hFound, _⟩ := hAgrees .zero ⟨0⟩
      rw [hIoctl, Except.ok.injEq, Prod.mk.injEq, Prod.mk.injEq] at hTarget
      rw [← hTarget.2.2, hAfter, hFind] at hFound
      omega
    · intro hSizes stray filp
      have hFound := hFind.mpr (by rw [hPosition, hSizes])
      rw [← hAfter] at hFound
      have hShort := (List.sublist_flatten_of_mem (List.getElem_mem hCmd)).length_le
      refine ⟨after, hIoctl stray filp, hFound, fun count _ => ?_⟩
      have hRead := @aesdRead_of_found world ⟨true, count, false⟩ after _ _ _ rfl hFound
        (h.entry_bytes hCmd) (Nat.le_of_lt hOffset) (by omega)
      rw [if_neg (by simp)] at hRead
      exact ⟨_, hRead⟩
  · refine iff_of_false (fun hAgrees => ?_) (fun hCondition => hInside hCondition.2)
    obtain ⟨after, hIoctl, _⟩ := hAgrees .zero ⟨0⟩
    rw [aesdIoctl_stored h hLock hCmd, if_pos (Nat.lt_of_not_le hInside)] at hIoctl
    cases hIoctl

/-- The two ways to count agree on every stored command exactly when the
ring looks the same from its oldest entry on as from index zero on. -/
theorem sizesByIndex_eq_iff (h : RingHolds world commands) :
    (∀ age, age < (commands.rtake aesdcharMaxWriteOperationsSupported).length →
        world.dev.aesdCb.sizesByIndex age = world.dev.aesdCb.sizesByAge age) ↔
      ∀ index, index < aesdcharMaxWriteOperationsSupported →
        (world.dev.aesdCb.slot index).size = (world.dev.aesdCb.slot ((world.dev.aesdCb.outOffs + index) %
          aesdcharMaxWriteOperationsSupported)).size := by
  constructor
  · intro hSums index hIndex
    rcases h.outOffs_or_full with hOut | hFull
    · rw [hOut, Nat.zero_add, Nat.mod_eq_of_lt hIndex]
    · rw [hFull] at hSums
      have hNext : world.dev.aesdCb.sizesByIndex (index + 1) = world.dev.aesdCb.sizesByAge (index + 1) := by
        rcases Nat.lt_or_ge (index + 1) aesdcharMaxWriteOperationsSupported with hMore | hLast
        · exact hSums _ hMore
        · rw [show index + 1 = aesdcharMaxWriteOperationsSupported from Nat.le_antisymm hIndex hLast]
          exact sizesByAge_all.symm
      rw [sizesByIndex_succ, sizesByAge_succ, hSums index hIndex] at hNext
      omega
  · intro hSizes age hAge
    rw [Ring.rtake_length] at hAge
    unfold AesdCircularBuffer.sizesByIndex AesdCircularBuffer.sizesByAge
    congr 1
    apply List.map_congr_left
    intro index hIndex
    exact hSizes index (by have := List.mem_range.mp hIndex; omega)

/-- Every seek to a byte of a stored command agrees with the reads. -/
def AllSeeksAgree (world : World) (commands : List (List Byte)) : Prop :=
  ∀ seekCmd (hCmd : seekCmd.writeCmd.toNat < commands.length),
    seekCmd.writeCmdOffset.toNat < commands[seekCmd.writeCmd.toNat].length →
    SeekAgrees world seekCmd commands[seekCmd.writeCmd.toNat]

theorem allSeeksAgree_iff (h : RingHolds world commands) (hLock : world.dev.mxLock = false)
    (hSize : (commands.rtake aesdcharMaxWriteOperationsSupported).flatten.length < 2 ^ 64) :
    AllSeeksAgree world (commands.rtake aesdcharMaxWriteOperationsSupported) ↔
      ∀ index, index < aesdcharMaxWriteOperationsSupported →
        (world.dev.aesdCb.slot index).size = (world.dev.aesdCb.slot ((world.dev.aesdCb.outOffs + index) %
          aesdcharMaxWriteOperationsSupported)).size := by
  have hSlots := @Ring.rtake_length _ aesdcharMaxWriteOperationsSupported commands
  constructor
  · intro hAll
    refine (sizesByIndex_eq_iff h).mp fun age hAge => ?_
    have hWord : (UInt32.ofNat age).toNat = age := by
      rw [UInt32.toNat_ofNat', Nat.mod_eq_of_lt]
      simp only [aesdcharMaxWriteOperationsSupported] at hSlots hAge
      omega
    have hCmd : (⟨UInt32.ofNat age, 0⟩ : AesdSeekto).writeCmd.toNat <
        (commands.rtake aesdcharMaxWriteOperationsSupported).length := hWord.symm ▸ hAge
    have hSome : 0 < (commands.rtake aesdcharMaxWriteOperationsSupported)[(UInt32.ofNat age).toNat].length :=
      List.length_pos_of_ne_nil (h.nonempty _ (List.mem_of_mem_drop (List.getElem_mem hCmd)))
    have hAgrees := (seekAgrees_stored_iff h hLock hSize hCmd hSome).mp (hAll _ hCmd hSome)
    rw [hWord] at hAgrees
    exact hAgrees.1
  · intro hSizes seekCmd hCmd hOffset
    refine (seekAgrees_stored_iff h hLock hSize hCmd hOffset).mpr
      ⟨(sizesByIndex_eq_iff h).mpr hSizes _ hCmd, ?_⟩
    have hEntry := Kernel.length_of_load (h.entry_bytes hCmd)
    rw [hSizes _ (by omega), ← hEntry]
    exact Nat.le_of_lt hOffset

/-- A write of a string that ends in a newline, all of which arrives. -/
structure WriteCall.Terminated (call : WriteCall) : Prop where
  served : call.Served
  whole : call.Whole
  newline : ∃ body, call.buf = some (body ++ [newline])

/-- On every device that such writes lead to, the seek to one byte of a
stored command agrees with the reads exactly when the slots before it have
the size of the entries before it and the offset is inside its slot; and all
seeks agree exactly when slot and entry have one size at every index. -/
theorem seek_agrees_iff (calls : List WriteCall) (trace : List (WriteCall × Int)) (world : World)
    (hCalls : ∀ call ∈ calls, call.Terminated)
    (hRun : run aesdWrite calls World.initial = .ok (trace, world))
    (hSize : world.storedSize < 2 ^ 64) :
    ∃ commands : List (List Byte), world.stored = commands.map .ok ∧
      (∀ seekCmd (hCmd : seekCmd.writeCmd.toNat < commands.length),
        seekCmd.writeCmdOffset.toNat < commands[seekCmd.writeCmd.toNat].length →
        (SeekAgrees world seekCmd commands[seekCmd.writeCmd.toNat] ↔
          world.dev.aesdCb.sizesByIndex seekCmd.writeCmd.toNat =
              world.dev.aesdCb.sizesByAge seekCmd.writeCmd.toNat ∧
            seekCmd.writeCmdOffset.toNat ≤ (world.dev.aesdCb.slot seekCmd.writeCmd.toNat).size)) ∧
      (AllSeeksAgree world commands ↔
        ∀ index, index < aesdcharMaxWriteOperationsSupported →
          (world.dev.aesdCb.slot index).size = (world.dev.aesdCb.slot
            ((world.dev.aesdCb.outOffs + index) % aesdcharMaxWriteOperationsSupported)).size) := by
  obtain ⟨_, last, hLast, hLog, hLock, _⟩ := served_run fun call hCall => (hCalls call hCall).served
  obtain ⟨_, rfl⟩ : _ = trace ∧ last = world := by
    rw [hRun] at hLast
    simpa [eq_comm] using hLast
  rw [hLog.ring.storedSize] at hSize
  exact ⟨_, hLog.ring.stored, fun seekCmd hCmd hOffset =>
    seekAgrees_stored_iff hLog.ring hLock hSize hCmd hOffset, allSeeksAgree_iff hLog.ring hLock hSize⟩

theorem wholeWrite_terminated (body : List Byte) : (wholeWrite (body ++ [newline])).Terminated :=
  ⟨wholeWrite_served _, wholeWrite_whole _, body, rfl⟩

/-- Ten short commands, the first of which a longer one replaces. -/
def wrappedBodies : List (List Byte) :=
  [[97], [98], [99], [100], [101], [102], [103], [104], [105], [106], [107, 107, 107]]

def wrappedWrites : List WriteCall := wrappedBodies.map fun body => wholeWrite (body ++ [newline])

theorem wrappedWrites_terminated : ∀ call ∈ wrappedWrites, call.Terminated := by
  intro call hCall
  obtain ⟨body, _, rfl⟩ := List.mem_map.mp hCall
  exact wholeWrite_terminated body

theorem seek_agrees_iff_wrapped : ∃ trace world,
    run aesdWrite wrappedWrites World.initial = .ok (trace, world) ∧
    ∃ commands : List (List Byte), world.stored = commands.map .ok ∧
      (AllSeeksAgree world commands ↔
        ∀ index, index < aesdcharMaxWriteOperationsSupported →
          (world.dev.aesdCb.slot index).size = (world.dev.aesdCb.slot
            ((world.dev.aesdCb.outOffs + index) % aesdcharMaxWriteOperationsSupported)).size) := by
  obtain ⟨trace, world, hRun, hSize⟩ : ∃ trace world,
      run aesdWrite wrappedWrites World.initial = .ok (trace, world) ∧ world.storedSize = 22 :=
    ⟨_, _, rfl, rfl⟩
  obtain ⟨commands, hStored, _, hAll⟩ :=
    seek_agrees_iff wrappedWrites trace world wrappedWrites_terminated hRun (by simp [hSize])
  exact ⟨trace, world, hRun, commands, hStored, hAll⟩

/-- The second oldest command begins at byte two. The seek to it goes to the
byte behind the first slot, which is byte four, in the third oldest one. -/
theorem not_allSeeksAgree : ¬ ∀ (calls : List WriteCall) (trace : List (WriteCall × Int)) (world : World)
    (commands : List (List Byte)), (∀ call ∈ calls, call.Terminated) →
    run aesdWrite calls World.initial = .ok (trace, world) → world.storedSize < 2 ^ 64 →
    world.stored = commands.map .ok → AllSeeksAgree world commands := by
  intro hClaim
  obtain ⟨trace, world, hRun, hSize, hStored, hIoctl, hFind, hOut⟩ : ∃ trace world,
      run aesdWrite wrappedWrites World.initial = .ok (trace, world) ∧ world.storedSize = 22 ∧
      world.stored = ((wrappedBodies.drop 1).map fun body => .ok (body ++ [newline])) ∧
      aesdIoctl (seekCall ⟨1, 0⟩ .zero) world ⟨0⟩ = .ok (0, world, ⟨4⟩) ∧
      aesdCircularBufferFindEntryOffsetForFpos world.dev.aesdCb 4 = .ok (some (3, 0)) ∧
      world.dev.aesdCb.outOffs = 1 := ⟨_, _, rfl, rfl, rfl, rfl, rfl, rfl⟩
  have hAll := hClaim wrappedWrites trace world ((wrappedBodies.drop 1).map fun body => body ++ [newline])
    wrappedWrites_terminated hRun (by simp [hSize]) (by rw [hStored, List.map_map]; rfl)
  obtain ⟨after, hAfter, hFound, _⟩ := hAll ⟨1, 0⟩ (by decide) (by decide) .zero ⟨0⟩
  rw [hIoctl, Except.ok.injEq, Prod.mk.injEq, Prod.mk.injEq] at hAfter
  have hPosition : unsigned64 after.fPos = 4 := by
    rw [← hAfter.2.2]
    rfl
  rw [hPosition, hFind, hOut] at hFound
  exact absurd hFound (by decide)

end Aesd
