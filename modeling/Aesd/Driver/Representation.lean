import Aesd.Driver.Device
import Aesd.Semantics.CommandLog

/-! How the device represents a log of commands: the ring has the last ten
commands in the slots of their numbers, each in an allocation of its own,
and the temporary buffer has what is pending. -/
namespace Aesd
open Kernel Word Memory Execution CommandLog

abbrev WriteLog := Log newline

structure RingHolds (world : World) (commands : List (List Byte)) : Prop where
  counted : Counted world.dev.aesdCb commands.length
  held : Ring.Holds aesdcharMaxWriteOperationsSupported
    (fun index => (world.dev.aesdCb.slot index).bytes world.heap) (commands.map .ok)
  nonempty : ∀ command ∈ commands, command ≠ []
  separate : ∀ index other id, (world.dev.aesdCb.slot index).buffptr = .block id →
    (world.dev.aesdCb.slot other).buffptr = .block id → index = other

structure TmpHolds (world : World) (bytes : List Byte) : Prop where
  size : world.dev.tmpSize = bytes.length
  pending : world.pending = .ok bytes
  separate : bytes ≠ [] → ∀ index id, world.dev.tmpBuf = .block id →
    (world.dev.aesdCb.slot index).buffptr ≠ .block id

/-- The device represents a log. A device whose lock was never given back
may have lost its pending bytes, but no operation will use them again. -/
structure Represents (world : World) (log : WriteLog) : Prop where
  ring : RingHolds world log.commands
  tmpSize : world.dev.tmpSize = log.pending.length
  tmp : world.dev.mxLock = false → TmpHolds world log.pending
  bufferSize : world.dev.bufferSize = log.contents.length % 2 ^ 64

variable {world next : World} {commands : List (List Byte)} {bytes buf : List Byte} {log : WriteLog}
  {call : WriteCall} {index id : Nat}

namespace RingHolds

/-- An occupied slot owns a live block that starts with its command. -/
theorem occupied (h : RingHolds world commands) (hIndex : index < aesdcharMaxWriteOperationsSupported)
    (hWritten : index < commands.length) :
    ∃ command ∈ commands, ∃ id, world.dev.aesdCb.slot index = ⟨.block id, command.length⟩ ∧
      world.heap.load id 0 command.length = some command := by
  obtain ⟨number, hNumber, hNear, rfl⟩ := Ring.number_of_slot hIndex hWritten
  have hBytes := h.held number (by simpa using hNumber) (by simpa using hNear)
  simp only [List.getElem_map] at hBytes
  have hMem := List.getElem_mem hNumber
  have hSize := Kernel.length_of_load hBytes
  have hPositive := List.length_pos_of_ne_nil (h.nonempty _ hMem)
  obtain ⟨id, hPtr, hLoad⟩ := block_of_load (by omega) hBytes
  refine ⟨commands[number], hMem, id, ?_, hSize ▸ hLoad⟩
  rw [hSize, ← hPtr]

theorem vacant (h : RingHolds world commands)
    (hIndex : aesdcharMaxWriteOperationsSupported ≤ index ∨ commands.length ≤ index) :
    world.dev.aesdCb.slot index = .zero := by
  by_cases hBound : index < aesdcharMaxWriteOperationsSupported
  · exact h.counted.vacant index (hIndex.resolve_left (Nat.not_le_of_lt hBound)) hBound
  · simp [AesdCircularBuffer.slot, Nat.le_of_not_lt hBound]

/-- A slot with a pointer is a slot of the array with a command. -/
theorem of_block (h : RingHolds world commands)
    (hPtr : (world.dev.aesdCb.slot index).buffptr = .block id) :
    index < aesdcharMaxWriteOperationsSupported ∧ ∃ command ∈ commands,
      world.dev.aesdCb.slot index = ⟨.block id, command.length⟩ ∧
      world.heap.load id 0 command.length = some command := by
  by_cases hIndex : aesdcharMaxWriteOperationsSupported ≤ index ∨ commands.length ≤ index
  · rw [h.vacant hIndex] at hPtr
    cases hPtr
  · obtain ⟨hBound, hWritten⟩ := not_or.mp hIndex
    obtain ⟨command, hMem, owner, hSlot, hLoad⟩ :=
      h.occupied (Nat.lt_of_not_le hBound) (Nat.lt_of_not_le hWritten)
    rw [hSlot] at hPtr
    cases hPtr
    exact ⟨Nat.lt_of_not_le hBound, command, hMem, hSlot, hLoad⟩

theorem live (h : RingHolds world commands) (hPtr : (world.dev.aesdCb.slot index).buffptr = .block id) :
    world.heap.Live id := by
  obtain ⟨_, _, _, _, hLoad⟩ := h.of_block hPtr
  exact Heap.live_of_load hLoad

/-- The ring is the same where neither the buffer nor its blocks changed. -/
theorem congr (h : RingHolds world commands) (hCb : next.dev.aesdCb = world.dev.aesdCb)
    (hBlocks : ∀ index id, (world.dev.aesdCb.slot index).buffptr = .block id →
      next.heap.block id = world.heap.block id) : RingHolds next commands where
  counted := hCb ▸ h.counted
  held := by
    intro number hNumber hNear
    rw [← h.held number hNumber hNear, hCb]
    exact load_congr fun id hPtr => hBlocks _ id hPtr
  nonempty := h.nonempty
  separate := hCb ▸ h.separate

/-- The commands that can be read, walking the ring from `outOffs`. -/
theorem stored (h : RingHolds world commands) :
    world.stored = (commands.rtake aesdcharMaxWriteOperationsSupported).map .ok := by
  have hCounted : Counted world.dev.aesdCb
      (commands.map (Except.ok : List Byte → Except Stop (List Byte))).length := by
    simpa using h.counted
  rw [World.stored, ← Ring.rtake_map]
  exact hCounted.entries_map h.held

theorem sizes (h : RingHolds world commands) :
    world.dev.aesdCb.entries.map AesdBufferEntry.size =
      (commands.rtake aesdcharMaxWriteOperationsSupported).map List.length := by
  have hCounted : Counted world.dev.aesdCb (commands.map List.length).length := by
    simpa using h.counted
  have hHolds : Ring.Holds aesdcharMaxWriteOperationsSupported
      (AesdBufferEntry.size ∘ world.dev.aesdCb.slot) (commands.map List.length) := by
    intro number hNumber hNear
    have hBytes := h.held number (by simpa using hNumber) (by simpa using hNear)
    simp only [List.getElem_map] at hBytes ⊢
    exact (Kernel.length_of_load hBytes).symm
  rw [← Ring.rtake_map]
  exact hCounted.entries_map hHolds

theorem storedSize (h : RingHolds world commands) :
    world.storedSize = (commands.rtake aesdcharMaxWriteOperationsSupported).flatten.length := by
  rw [World.storedSize, h.sizes, Segments.sum_map_length]

end RingHolds

/-- The memory a call needs is there: it was granted, or none is needed. -/
def WriteCall.HasMemory (call : WriteCall) (buf : List Byte) (dev : AesdDev) : Prop :=
  call.granted = true ∨ dev.tmpSize + buf.length = 0

/-- Filling the temporary buffer moves it into a new block, or leaves it
without one when it is empty, and touches no other block. -/
theorem fillTmpBuf_served (hTmp : TmpHolds world bytes) (hMemory : call.HasMemory buf world.dev) :
    ∃ tmpBuf heap, fillTmpBuf call buf world =
        .ok (some (buf.take call.copied).length, ⟨heap, { world.dev with
          tmpBuf, tmpSize := bytes.length + (buf.take call.copied).length }⟩) ∧
      load tmpBuf 0 (bytes.length + (buf.take call.copied).length) heap =
        .ok (bytes ++ buf.take call.copied) ∧
      (∀ id, tmpBuf = .block id → ¬ world.heap.Live id) ∧
      (∀ id, world.heap.Live id → (bytes ≠ [] → world.dev.tmpBuf ≠ .block id) →
        heap.block id = world.heap.block id) := by
  have hRetval : buf.length - (buf.length - call.copied) = (buf.take call.copied).length := by
    rw [List.length_take]
    omega
  rcases Nat.eq_zero_or_pos bytes.length with hEmpty | hPending
  · obtain rfl : bytes = [] := List.length_eq_zero_iff.mp hEmpty
    have hSize : world.dev.tmpSize = 0 := hTmp.size
    rcases Nat.eq_zero_or_pos buf.length with hNothing | hCount
    · obtain rfl : buf = [] := List.length_eq_zero_iff.mp hNothing
      refine ⟨.zeroSize, world.heap, ?_, by simp, by simp, fun _ _ _ => rfl⟩
      simp [fillTmpBuf, hSize, kmalloc, memset, copyFromUser, store, bind, Except.bind, pure, Except.pure]
    · have hGranted : call.granted = true := hMemory.resolve_right (by omega)
      obtain ⟨cleared, filled, hClear, hFill, hLoad, hOther, _, _⟩ :=
        @fill_block (world.heap.alloc ((List.range buf.length).map call.junk)) world.heap.next 0 []
          _ buf call.copied Heap.alloc_block_next (by simp) load_zero
      refine ⟨.block world.heap.next, filled, ?_, by simpa using hLoad, ?_, ?_⟩
      · simp [fillTmpBuf, hSize, hGranted, kmalloc_granted hCount, hClear, hFill, hRetval, bind,
          Except.bind, pure, Except.pure]
      · rintro id hId hLive
        cases hId
        exact Heap.ne_next_of_live hLive rfl
      · intro id hLive _
        rw [hOther id (Heap.ne_next_of_live hLive), Heap.alloc_block_of_live hLive]
  · have hSize : world.dev.tmpSize = bytes.length := hTmp.size
    have hGranted : call.granted = true := hMemory.resolve_right (by omega)
    have hPendingLoad := hTmp.pending
    rw [World.pending, hSize] at hPendingLoad
    obtain ⟨old, moved, contents, hPtr, hRealloc, hNew, hLength, hKept, hStays⟩ :=
      krealloc_moves call.junk hPending (Nat.le_add_right _ buf.length) hPendingLoad
    obtain ⟨cleared, filled, hClear, hFill, hLoad, hOther, _, _⟩ :=
      @fill_block _ _ _ _ _ buf call.copied hNew (Nat.le_of_eq hLength.symm) hKept
    refine ⟨.block world.heap.next, filled, ?_, hLoad, ?_, ?_⟩
    · rw [hPtr] at hRealloc
      simp [fillTmpBuf, hSize, hPending, hGranted, hPtr, hRealloc, hClear, hFill, hRetval, bind,
        Except.bind, pure, Except.pure]
    · rintro id hId hLive
      cases hId
      exact Heap.ne_next_of_live hLive rfl
    · intro id hLive hNotOld
      have hId : id ≠ old := by
        rintro rfl
        exact hNotOld (List.ne_nil_of_length_pos hPending) hPtr
      rw [hOther id (Heap.ne_next_of_live hLive), hStays id hLive hId]

/-- The ring is as before after the filling, and the temporary buffer has
the bytes that were copied behind those that were pending. -/
theorem fillTmpBuf_holds (hRing : RingHolds world commands) (hTmp : TmpHolds world bytes)
    (hMemory : call.HasMemory buf world.dev) :
    ∃ tmpBuf filled, fillTmpBuf call buf world = .ok (some (buf.take call.copied).length, filled) ∧
      filled.dev = { world.dev with
        tmpBuf, tmpSize := bytes.length + (buf.take call.copied).length } ∧
      (∀ id, tmpBuf = .block id → ¬ world.heap.Live id) ∧
      RingHolds filled commands ∧ TmpHolds filled (bytes ++ buf.take call.copied) := by
  obtain ⟨tmpBuf, heap, hFill, hLoad, hFresh, hKept⟩ := fillTmpBuf_served hTmp hMemory
  refine ⟨tmpBuf, _, hFill, rfl, hFresh, ?_, ⟨List.length_append.symm, hLoad, fun _ index id hPtr hSlot => ?_⟩⟩
  · refine hRing.congr rfl fun index id hPtr => hKept id (hRing.live hPtr) ?_
    exact fun hPending hSame => hTmp.separate hPending index id hSame hPtr
  · exact hFresh id hPtr (hRing.live hSlot)

/-- Making room frees the block of the slot that is written next, where
there is one, and nothing else. -/
theorem freeOldest_spec (h : RingHolds world commands) :
    ∃ heap aesdCb, freeOldest world = .ok ⟨heap, { world.dev with aesdCb }⟩ ∧
      Counted aesdCb commands.length ∧
      (∀ index, index ≠ commands.length % aesdcharMaxWriteOperationsSupported →
        aesdCb.slot index = world.dev.aesdCb.slot index) ∧
      (∀ id, heap.block id =
        if (world.dev.aesdCb.slot (commands.length % aesdcharMaxWriteOperationsSupported)).buffptr =
          .block id then none else world.heap.block id) := by
  have hIn := h.counted.inOffs_lt
  by_cases hFull : world.dev.aesdCb.full = true
  · have hCount := h.counted.full_iff.mp hFull
    obtain ⟨command, _, id, hSlot, hLoad⟩ := h.occupied hIn (hIn.trans_le hCount)
    refine ⟨world.heap.free id, world.dev.aesdCb.setSlot world.dev.aesdCb.inOffs ⟨.block id, 0⟩,
      ?_, ?_, ?_, ?_⟩
    · simp [freeOldest, hFull, hSlot, kfree_live (Heap.live_of_load hLoad), bind, Except.bind, pure, Except.pure]
    · refine ⟨h.counted.inOffs, h.counted.outOffs, h.counted.full, ?_⟩
      intro index hIndex hBound
      omega
    · intro index hIndex
      rw [AesdCircularBuffer.slot_setSlot hIn, if_neg (h.counted.inOffs ▸ hIndex)]
    · intro other
      rw [← h.counted.inOffs, hSlot]
      simp [Heap.free, eq_comm]
  · have hCount := mt h.counted.full_iff.mpr hFull
    have hVacant : world.dev.aesdCb.slot (commands.length % aesdcharMaxWriteOperationsSupported) = .zero :=
      h.vacant (Or.inr (by rw [Nat.mod_eq_of_lt (Nat.lt_of_not_le hCount)]))
    refine ⟨world.heap, world.dev.aesdCb, by simp [freeOldest, hFull], h.counted, fun _ _ => rfl, ?_⟩
    intro id
    rw [hVacant]
    simp [AesdBufferEntry.zero]

/-- With a newline pending, the pending bytes become the newest command. -/
theorem commitTmpBuf_of_mem (hRing : RingHolds world commands) (hTmp : TmpHolds world bytes)
    (hNewline : newline ∈ bytes) :
    ∃ heap aesdCb, commitTmpBuf world =
        .ok ⟨heap, { world.dev with aesdCb, tmpBuf := .null, tmpSize := 0 }⟩ ∧
      RingHolds ⟨heap, { world.dev with aesdCb, tmpBuf := .null, tmpSize := 0 }⟩ (commands ++ [bytes]) ∧
      (∀ index, aesdCb.slot index =
        if index = commands.length % aesdcharMaxWriteOperationsSupported then
          ⟨world.dev.tmpBuf, world.dev.tmpSize⟩ else world.dev.aesdCb.slot index) ∧
      (∀ id, heap.block id =
        if (world.dev.aesdCb.slot (commands.length % aesdcharMaxWriteOperationsSupported)).buffptr =
          .block id then none else world.heap.block id) := by
  obtain ⟨heap, freed, hFree, hCounted, hSame, hBlock⟩ := freeOldest_spec hRing
  have hBytes : bytes ≠ [] := List.ne_nil_of_mem hNewline
  have hFound : memchr world.dev.tmpBuf newline world.dev.tmpSize world.heap = .ok true := by
    have hPending := hTmp.pending
    rw [World.pending] at hPending
    simp [memchr, hPending, hNewline, bind, Except.bind, pure, Except.pure]
  obtain ⟨hNext, hAdded⟩ := @Counted.addEntry freed ⟨world.dev.tmpBuf, world.dev.tmpSize⟩ _ hCounted
  -- the slots of the older commands are those from before
  have hSlot : ∀ index, (aesdCircularBufferAddEntry freed ⟨world.dev.tmpBuf, world.dev.tmpSize⟩).2.slot index =
      if index = commands.length % aesdcharMaxWriteOperationsSupported then
        ⟨world.dev.tmpBuf, world.dev.tmpSize⟩ else world.dev.aesdCb.slot index := by
    intro index
    rw [hAdded]
    split
    · rfl
    · next hIndex => exact hSame index hIndex
  have hRun : commitTmpBuf world = .ok ⟨heap, { world.dev with
      aesdCb := (aesdCircularBufferAddEntry freed ⟨world.dev.tmpBuf, world.dev.tmpSize⟩).2,
      tmpBuf := .null, tmpSize := 0 }⟩ := by
    simp [commitTmpBuf, hFound, hFree, bind, Except.bind, pure, Except.pure]
  refine ⟨heap, _, hRun, ⟨?_, ?_, ?_, ?_⟩, hSlot, hBlock⟩
  · rw [List.length_append]
    exact hNext
  · rw [List.map_append]
    refine hRing.held.push ?_ ?_
    · rw [List.length_map]
      simp only [hSlot, ↓reduceIte]
      rw [← hTmp.pending]
      refine load_congr fun id hPtr => ?_
      rw [hBlock, if_neg (hTmp.separate hBytes _ id hPtr)]
    · intro index hIndex
      rw [List.length_map] at hIndex
      simp only [hSlot, hIndex, ↓reduceIte]
      refine load_congr fun id hPtr => ?_
      rw [hBlock, if_neg]
      exact fun hOldest => hIndex (hRing.separate index _ id hPtr hOldest)
  · intro command hCommand
    rcases List.mem_append.mp hCommand with hOld | hNew
    · exact hRing.nonempty command hOld
    · exact List.mem_singleton.mp hNew ▸ hBytes
  · intro index other id hIndex hOther
    simp only [hSlot] at hIndex hOther
    split at hIndex <;> split at hOther
    · next hFirst hSecond => rw [hFirst, hSecond]
    · exact absurd hOther (hTmp.separate hBytes _ id hIndex)
    · exact absurd hIndex (hTmp.separate hBytes _ id hOther)
    · exact hRing.separate index other id hIndex hOther

theorem commitTmpBuf_of_not_mem (hTmp : TmpHolds world bytes) (hNewline : newline ∉ bytes) :
    commitTmpBuf world = .ok world := by
  have hPending := hTmp.pending
  rw [World.pending] at hPending
  simp [commitTmpBuf, memchr, hPending, hNewline, bind, Except.bind, pure, Except.pure]

theorem tmpHolds_nil (h : world.dev.tmpSize = 0) : TmpHolds world [] where
  size := h
  pending := by rw [World.pending, h, load_zero]
  separate := fun hNil => absurd rfl hNil

/-- Everything a write can do. Only one of its ways back keeps the lock. -/
inductive WriteOutcome (call : WriteCall) (world : World) (log : WriteLog) :
    Except Stop (Int × World) → Prop where
  | noBuffer (hBuf : call.buf = none) : WriteOutcome call world log (.ok (-EFAULT, world))
  | interrupted (buf : List Byte) (hBuf : call.buf = some buf) (hInterrupted : call.interrupted = true) :
      WriteOutcome call world log (.ok (-ERESTARTSYS, world))
  | blocked (buf : List Byte) (hBuf : call.buf = some buf) (hInterrupted : call.interrupted = false)
      (hLock : world.dev.mxLock = true) : WriteOutcome call world log (.error .blocked)
  | refused (buf : List Byte) (hBuf : call.buf = some buf) (hInterrupted : call.interrupted = false)
      (hLock : world.dev.mxLock = false) (hMemory : ¬ call.HasMemory buf world.dev) :
      WriteOutcome call world log
        (.ok (-ENOMEM, { world with dev := { world.dev with mxLock := true, tmpBuf := .null } }))
  | served (buf : List Byte) (hBuf : call.buf = some buf) (hInterrupted : call.interrupted = false)
      (hLock : world.dev.mxLock = false) (hMemory : call.HasMemory buf world.dev) (next : World)
      (hNext : Represents next (log.accept (buf.take call.copied)))
      (hUnlocked : next.dev.mxLock = false) :
      WriteOutcome call world log (.ok ((buf.take call.copied).length, next))

theorem bufferSize_accept {size : Nat} (hSize : size = log.contents.length % 2 ^ 64) :
    unsigned64 ((size : Int) + bytes.length) = (log.accept bytes).contents.length % 2 ^ 64 := by
  rw [Log.contents_accept, List.length_append, hSize,
    show ((log.contents.length % 2 ^ 64 : Nat) : Int) + bytes.length =
      ((log.contents.length % 2 ^ 64 + bytes.length : Nat) : Int) by omega, unsigned64_natCast]
  omega

/-- Under the lock, a write is a filling and a commit. -/
theorem aesdWrite_filled {retval : Nat} {filled : World} (hBuf : call.buf = some buf)
    (hInterrupted : call.interrupted = false) (hLock : world.dev.mxLock = false)
    (hFill : fillTmpBuf call buf ⟨world.heap, { world.dev with mxLock := true }⟩ =
      .ok (some retval, filled)) :
    aesdWrite call world = (commitTmpBuf filled).bind fun next =>
      .ok ((retval : Int), { next with dev := { mutexUnlock next.dev with
        bufferSize := unsigned64 (next.dev.bufferSize + retval) } }) := by
  simp only [aesdWrite, hBuf, mutexLockInterruptible, hInterrupted, hLock, bind, Except.bind,
    Bool.false_eq_true, ↓reduceIte, hFill]
  cases commitTmpBuf filled <;> rfl

/-- Under the lock, a write that has its memory is one step of the log. -/
theorem aesdWrite_served (h : Represents world log) (hBuf : call.buf = some buf)
    (hInterrupted : call.interrupted = false) (hLock : world.dev.mxLock = false)
    (hMemory : call.HasMemory buf world.dev) :
    ∃ next, aesdWrite call world = .ok ((buf.take call.copied).length, next) ∧
      Represents next (log.accept (buf.take call.copied)) ∧ next.dev.mxLock = false := by
  have hTmp := h.tmp hLock
  obtain ⟨locked, hLocked⟩ : ∃ locked : World, locked = ⟨world.heap, { world.dev with mxLock := true }⟩ :=
    ⟨_, rfl⟩
  have hLockedTmp : TmpHolds locked log.pending := by
    rw [hLocked]
    exact ⟨hTmp.size, hTmp.pending, hTmp.separate⟩
  have hLockedRing : RingHolds locked log.commands := by
    rw [hLocked]
    exact h.ring.congr rfl fun _ _ _ => rfl
  obtain ⟨tmpBuf, filled, hFill, hFilledDev, _, hFilledRing, hFilledTmp⟩ :=
    fillTmpBuf_holds hLockedRing hLockedTmp (show call.HasMemory buf locked.dev by rw [hLocked]; exact hMemory)
  have hRun := aesdWrite_filled hBuf hInterrupted hLock (hLocked ▸ hFill)
  have hFilledSize : filled.dev.bufferSize = world.dev.bufferSize := by rw [hFilledDev, hLocked]
  by_cases hNewline : newline ∈ log.pending ++ buf.take call.copied
  · obtain ⟨hCommands, hPending⟩ := Log.accept_of_mem hNewline
    obtain ⟨freed, aesdCb, hCommit, hRing, _, _⟩ := commitTmpBuf_of_mem hFilledRing hFilledTmp hNewline
    rw [hCommit] at hRun
    refine ⟨_, hRun, ⟨?_, ?_, ?_, ?_⟩, rfl⟩
    · rw [hCommands]
      exact hRing.congr rfl fun _ _ _ => rfl
    · rw [hPending]
      rfl
    · intro _
      rw [hPending]
      exact tmpHolds_nil rfl
    · exact bufferSize_accept (hFilledSize.trans h.bufferSize)
  · obtain ⟨hCommands, hPending⟩ := Log.accept_of_not_mem hNewline
    rw [commitTmpBuf_of_not_mem hFilledTmp hNewline] at hRun
    refine ⟨_, hRun, ⟨?_, ?_, ?_, ?_⟩, rfl⟩
    · rw [hCommands]
      exact hFilledRing.congr rfl fun _ _ _ => rfl
    · rw [hPending]
      exact hFilledTmp.size
    · intro _
      rw [hPending]
      exact ⟨hFilledTmp.size, hFilledTmp.pending, hFilledTmp.separate⟩
    · exact bufferSize_accept (hFilledSize.trans h.bufferSize)

/-- Without memory the pending buffer pointer is lost and the lock is kept. -/
theorem fillTmpBuf_refused (hTmp : TmpHolds world bytes) (hMemory : ¬ call.HasMemory buf world.dev) :
    fillTmpBuf call buf world = .ok (none, { world with dev := { world.dev with tmpBuf := .null } }) := by
  obtain ⟨hGranted, hSize⟩ := not_or.mp hMemory
  rw [Bool.not_eq_true] at hGranted
  rcases Nat.eq_zero_or_pos world.dev.tmpSize with hEmpty | hPending
  · have hCount : buf.length ≠ 0 := by omega
    simp [fillTmpBuf, hEmpty, kmalloc, hCount, hGranted, pure, Except.pure]
  · obtain ⟨id, hPtr, hLoad⟩ := block_of_load hPending hTmp.pending
    obtain ⟨contents, hBlock, _, _⟩ := Heap.load_eq_some_iff.mp hLoad
    have hRealloc := krealloc_refused call.junk (Nat.pos_of_ne_zero hSize) hBlock
    simp [fillTmpBuf, hPending, hPtr, hGranted, hRealloc, bind, Except.bind, pure, Except.pure]

theorem aesdWrite_outcome (h : Represents world log) (call : WriteCall) :
    WriteOutcome call world log (aesdWrite call world) := by
  cases hBuf : call.buf with
  | none =>
      rw [show aesdWrite call world = .ok (-EFAULT, world) by simp only [aesdWrite, hBuf]]
      exact .noBuffer hBuf
  | some buf =>
      cases hInterrupted : call.interrupted with
      | true =>
          rw [show aesdWrite call world = .ok (-ERESTARTSYS, world) by
            simp [aesdWrite, hBuf, mutexLockInterruptible, hInterrupted, bind, Except.bind, pure, Except.pure]]
          exact .interrupted buf hBuf hInterrupted
      | false =>
          cases hLock : world.dev.mxLock with
          | true =>
              rw [show aesdWrite call world = .error .blocked by
                simp [aesdWrite, hBuf, mutexLockInterruptible, hInterrupted, hLock, bind, Except.bind]]
              exact .blocked buf hBuf hInterrupted hLock
          | false =>
              by_cases hMemory : call.HasMemory buf world.dev
              · obtain ⟨next, hRun, hNext, hUnlocked⟩ := aesdWrite_served h hBuf hInterrupted hLock hMemory
                rw [hRun]
                exact .served buf hBuf hInterrupted hLock hMemory next hNext hUnlocked
              · obtain ⟨hSize, hPending, hSeparate⟩ := h.tmp hLock
                have hFill := @fillTmpBuf_refused ⟨world.heap, { world.dev with mxLock := true }⟩
                  log.pending buf call ⟨hSize, hPending, hSeparate⟩ hMemory
                rw [show aesdWrite call world = .ok (-ENOMEM,
                    { world with dev := { world.dev with mxLock := true, tmpBuf := .null } }) by
                  simp [aesdWrite, hBuf, mutexLockInterruptible, hInterrupted, hLock, hFill, bind,
                    Except.bind, pure, Except.pure]]
                exact .refused buf hBuf hInterrupted hLock hMemory

end Aesd
