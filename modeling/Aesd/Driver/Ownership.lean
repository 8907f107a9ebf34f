import Aesd.Driver.Locking
import Aesd.Driver.ReadBack

/-! Who owns the allocations. Every entry and the temporary buffer have a
live block of their own, so what a write or the clean-up frees is live. -/
namespace Aesd
open Kernel Word Memory Execution CommandLog

/-- A slot with a command: its pointer and its size name live bytes, among
them a newline. -/
structure HoldsCommand (entry : AesdBufferEntry) (heap : Heap Byte) : Prop where
  nonempty : 1 ≤ entry.size
  newline : ∃ bytes, entry.bytes heap = .ok bytes ∧ newline ∈ bytes
  live : ∃ id contents, entry.buffptr = .block id ∧ heap.block id = some contents ∧
    entry.size ≤ contents.length

/-- The slots below the number of commits have commands, the others are zero;
no two of the blocks in use are one, and making room for an entry frees the
pointer that adding it displaces. -/
structure Owned (world : World) (commits : Nat) : Prop where
  occupied : ∀ index, index < min commits aesdcharMaxWriteOperationsSupported →
    HoldsCommand (world.dev.aesdCb.slot index) world.heap
  vacant : ∀ index, min commits aesdcharMaxWriteOperationsSupported ≤ index →
    world.dev.aesdCb.slot index = .zero
  tmp : 0 < world.dev.tmpSize → ∃ id contents, world.dev.tmpBuf = .block id ∧
    world.heap.block id = some contents ∧ world.dev.tmpSize ≤ contents.length
  separate : ∀ index other id, (world.dev.aesdCb.slot index).buffptr = .block id →
    (world.dev.aesdCb.slot other).buffptr = .block id → index = other
  tmpSeparate : 0 < world.dev.tmpSize → ∀ index id, world.dev.tmpBuf = .block id →
    (world.dev.aesdCb.slot index).buffptr ≠ .block id
  displaced : world.dev.aesdCb.full = true → world.dev.aesdCb.inOffs = world.dev.aesdCb.outOffs ∧
    ∀ added, (aesdCircularBufferAddEntry world.dev.aesdCb added).1 =
      (world.dev.aesdCb.slot world.dev.aesdCb.inOffs).buffptr
  live : ∀ index id, (world.dev.aesdCb.slot index).buffptr = .block id → world.heap.Live id

/-- Where a write needs memory, it gets it. -/
def Op.Granted (op : Op) : Prop := ∀ fd call, op = .write fd call → call.granted = true

variable {world : World} {log : WriteLog} {commands : List (List Byte)} {index : Nat} {ops : List Op}
  {trace : List (Op × Reply)} {system : System}

theorem RingHolds.holdsCommand (h : RingHolds world commands)
    (hComplete : ∀ command ∈ commands, newline ∈ command)
    (hIndex : index < min commands.length aesdcharMaxWriteOperationsSupported) :
    HoldsCommand (world.dev.aesdCb.slot index) world.heap := by
  obtain ⟨command, hCommand, id, hSlot, hLoad⟩ :=
    h.occupied (show index < aesdcharMaxWriteOperationsSupported by omega) (show index < _ by omega)
  have hPositive := List.length_pos_of_ne_nil (h.nonempty command hCommand)
  obtain ⟨contents, hBlock, hFits, _⟩ := Heap.load_eq_some_iff.mp hLoad
  rw [hSlot]
  exact ⟨hPositive, ⟨command, load_block hPositive hLoad, hComplete command hCommand⟩,
    ⟨id, contents, rfl, hBlock, by simpa using hFits⟩⟩

theorem Represents.owned (h : Represents world log) (hLock : world.dev.mxLock = false) :
    Owned world log.commands.length where
  occupied := fun index hIndex => h.ring.holdsCommand log.complete hIndex
  vacant := fun index hIndex => h.ring.vacant (by omega)
  tmp := by
    intro hSome
    obtain ⟨id, hPtr, hLoad⟩ := block_of_load hSome (h.tmp hLock).pending
    obtain ⟨contents, hBlock, hFits, _⟩ := Heap.load_eq_some_iff.mp hLoad
    exact ⟨id, contents, hPtr, hBlock, by omega⟩
  separate := h.ring.separate
  tmpSeparate := by
    intro hSome
    refine (h.tmp hLock).separate (List.ne_nil_of_length_pos ?_)
    rw [← h.tmpSize]
    exact hSome
  displaced := by
    intro hFull
    refine ⟨h.ring.counted.inOffs_eq_outOffs hFull, fun added => ?_⟩
    rw [h.ring.counted.inOffs_eq_outOffs hFull]
    simp [aesdCircularBufferAddEntry, hFull]
  live := fun index id => h.ring.live

/-- What the clean-up needs from the slots that are still to come. -/
structure SlotsLive (world : World) (first : Nat) : Prop where
  live : ∀ index, first ≤ index → index < aesdcharMaxWriteOperationsSupported →
    0 < (world.dev.aesdCb.slot index).size →
    ∃ id, (world.dev.aesdCb.slot index).buffptr = .block id ∧ world.heap.Live id
  separate : ∀ index other id, (world.dev.aesdCb.slot index).buffptr = .block id →
    (world.dev.aesdCb.slot other).buffptr = .block id → index = other

/-- One round of the loop: a populated slot loses its block and its size,
and keeps its pointer. -/
theorem cleanupLoop_step {first : Nat} (hFirst : first < aesdcharMaxWriteOperationsSupported)
    (h : SlotsLive world first) :
    ∃ next : World, (∀ left, cleanupLoop (left + 1) first world = cleanupLoop left (first + 1) next) ∧
      (∀ index, next.dev.aesdCb.slot index = if index = first then
        ⟨(world.dev.aesdCb.slot first).buffptr, 0⟩ else world.dev.aesdCb.slot index) ∧
      ∀ id, next.heap.Live id ↔ world.heap.Live id ∧
        (0 < (world.dev.aesdCb.slot first).size → (world.dev.aesdCb.slot first).buffptr ≠ .block id) := by
  rcases Nat.eq_zero_or_pos (world.dev.aesdCb.slot first).size with hEmpty | hSome
  · refine ⟨world, fun left => ?_, fun index => ?_, fun id => ?_⟩
    · rw [cleanupLoop, if_neg (by omega)]
    · split
      · next hIndex => rw [hIndex, ← hEmpty]
      · rfl
    · exact ⟨fun hLive => ⟨hLive, fun hPositive => by omega⟩, fun hLive => hLive.1⟩
  · obtain ⟨id, hPtr, hLive⟩ := h.live first (Nat.le_refl _) hFirst hSome
    obtain ⟨emptied, hEmptied⟩ : ∃ emptied, emptied =
      world.dev.aesdCb.setSlot first { world.dev.aesdCb.slot first with size := 0 } := ⟨_, rfl⟩
    refine ⟨⟨world.heap.free id, { world.dev with aesdCb := emptied }⟩, fun left => ?_, fun index => ?_,
      fun other => ?_⟩
    · rw [cleanupLoop, if_pos ⟨hSome, by simp [hPtr]⟩, hEmptied]
      simp [hPtr, kfree_live hLive, bind, Except.bind]
    · rw [hEmptied]
      exact AesdCircularBuffer.slot_setSlot hFirst index
    · rw [hPtr]
      by_cases hSame : other = id
      · simp [Heap.Live, Heap.free, hSame, hSome]
      · simp [Heap.Live, Heap.free, hSame, Ne.symm hSame]

/-- The clean-up from one slot on: it frees each block once, leaves no slot
with a size, and keeps all pointers. -/
theorem cleanupLoop_spec (left first : Nat) (hSlots : first + left = aesdcharMaxWriteOperationsSupported)
    (h : SlotsLive world first) :
    ∃ after, cleanupLoop left first world = .ok after ∧
      (∀ index, after.dev.aesdCb.slot index = if first ≤ index ∧
        index < aesdcharMaxWriteOperationsSupported then ⟨(world.dev.aesdCb.slot index).buffptr, 0⟩
        else world.dev.aesdCb.slot index) ∧
      ∀ id, after.heap.Live id ↔ world.heap.Live id ∧ ∀ index, first ≤ index →
        index < aesdcharMaxWriteOperationsSupported → 0 < (world.dev.aesdCb.slot index).size →
        (world.dev.aesdCb.slot index).buffptr ≠ .block id := by
  induction left generalizing first world with
  | zero =>
      refine ⟨world, rfl, fun index => by rw [if_neg (by omega)], fun id => ?_⟩
      exact ⟨fun hLive => ⟨hLive, fun index hFirst hIndex => by omega⟩, fun hLive => hLive.1⟩
  | succ left ih =>
      obtain ⟨next, hStep, hSlot, hNextLive⟩ := cleanupLoop_step (by omega) h
      have hPtr : ∀ index, (next.dev.aesdCb.slot index).buffptr = (world.dev.aesdCb.slot index).buffptr := by
        intro index
        rw [hSlot]
        split
        · next hIndex => rw [hIndex]
        · rfl
      have hLater : ∀ index, first + 1 ≤ index →
          next.dev.aesdCb.slot index = world.dev.aesdCb.slot index := by
        intro index hIndex
        rw [hSlot, if_neg (by omega)]
      have hNext : SlotsLive next (first + 1) := by
        refine ⟨fun index hIndex hBound hSome => ?_, fun index other id => ?_⟩
        · rw [hLater index hIndex] at hSome ⊢
          obtain ⟨id, hBlock, hLive⟩ := h.live index (by omega) hBound hSome
          refine ⟨id, hBlock, (hNextLive id).mpr ⟨hLive, fun _ hFreed => ?_⟩⟩
          have := h.separate index first id hBlock hFreed
          omega
        · rw [hPtr, hPtr]
          exact h.separate index other id
      obtain ⟨after, hRun, hAfter, hLive⟩ := ih (first + 1) (by omega) hNext
      refine ⟨after, (hStep left).trans hRun, fun index => ?_, fun id => ?_⟩
      · rw [hAfter, hPtr, hSlot]
        split
        · next hIndex => rw [if_pos ⟨by omega, hIndex.2⟩]
        · next hIndex =>
          split
          · next hSame => rw [if_pos ⟨by omega, by omega⟩, hSame]
          · next hOther => rw [if_neg (by omega)]
      · rw [hLive, hNextLive]
        constructor
        · rintro ⟨⟨hBefore, hFreed⟩, hRest⟩
          refine ⟨hBefore, fun index hFirst hBound hSome => ?_⟩
          rcases Nat.eq_or_lt_of_le hFirst with rfl | hMore
          · exact hFreed hSome
          · have hKept := hRest index hMore hBound
            rw [hLater index hMore] at hKept
            exact hKept hSome
        · rintro ⟨hBefore, hAll⟩
          refine ⟨⟨hBefore, hAll first (Nat.le_refl _) (by omega)⟩, fun index hMore hBound hSome => ?_⟩
          rw [hLater index hMore] at hSome ⊢
          exact hAll index (by omega) hBound hSome

theorem Owned.slotsLive {commits : Nat} (h : Owned world commits) : SlotsLive world 0 where
  live := by
    intro index _ _ hSome
    rcases Nat.lt_or_ge index (min commits aesdcharMaxWriteOperationsSupported) with hUsed | hVacant
    · obtain ⟨id, _, hPtr, hBlock, _⟩ := (h.occupied index hUsed).live
      exact ⟨id, hPtr, Heap.live_of_block hBlock⟩
    · rw [h.vacant index hVacant] at hSome
      cases hSome
  separate := h.separate

/-- With memory granted, no write of a run keeps the lock. -/
theorem granted_mxLock (hGranted : ∀ op ∈ ops, op.Granted)
    (hRun : run System.exec ops System.initial = .ok (trace, system)) :
    system.world.dev.mxLock = false := by
  refine run_mxLock ?_ hRun
  have hAlong := along_and_mem (@along_true _ _ _ _ System.exec ops System.initial) hGranted
  rw [along_iff_split] at hAlong ⊢
  intro before op after earlier middle reply next hOps hBefore hExec
  obtain ⟨_, hOp⟩ := hAlong before op after earlier middle reply next hOps hBefore hExec
  rintro ⟨fd, call, rfl, buf, _, _, hMemory⟩
  exact hMemory (Or.inl (hOp fd call rfl))

theorem aesdWrite_ne_fault (h : Represents world log) (call : WriteCall) :
    aesdWrite call world ≠ .error .fault := by
  intro hFault
  have hOutcome := aesdWrite_outcome h call
  rw [hFault] at hOutcome
  cases hOutcome

/-- A read copies from inside an entry that has a block of its own, even where
the sizes together do not fit in a word. -/
theorem aesdRead_ne_fault (h : RingHolds world commands) (call : ReadCall) (filp : File) :
    aesdRead call world filp ≠ .error .fault := by
  intro hFault
  unfold aesdRead at hFault
  split at hFault
  · cases hFault
  · rcases bind_error_iff.mp hFault with hFind | ⟨found, hFind, hRest⟩
    · cases findLoop_error hFind
    · rcases found with _ | ⟨slot, offset⟩
      · cases hRest
      · have hInside := findLoop_inside (unsigned64_lt filp.fPos) (Nat.zero_le _) hFind
        obtain ⟨bytes, hBytes⟩ := h.bytes_of_size (Nat.zero_lt_of_lt hInside)
        rcases bind_error_iff.mp hRest with hCopy | ⟨copied, _, hReply⟩
        · rw [AesdBufferEntry.copy_part hBytes (Nat.le_of_lt hInside)] at hCopy
          cases hCopy
        · cases copied <;> cases hReply

/-- After any run in which memory is granted, every pointer of a slot is
live and owned by that slot alone; no operation touches or frees memory that
is not live; and the clean-up frees the block of every slot once and leaves
every slot with its pointer and no size. -/
theorem ownership (ops : List Op) (trace : List (Op × Reply)) (system : System)
    (hGranted : ∀ op ∈ ops, op.Granted)
    (hRun : run System.exec ops System.initial = .ok (trace, system)) :
    Owned system.world (logOf trace).commands.length ∧
    (∀ call, aesdWrite call system.world ≠ .error .fault) ∧
    (∀ call filp, aesdRead call system.world filp ≠ .error .fault) ∧
    ∃ after, aesdCleanupModule system.world = .ok after ∧
      (∀ index id, (system.world.dev.aesdCb.slot index).buffptr = .block id → ¬ after.heap.Live id) ∧
      ∀ index, (after.dev.aesdCb.slot index).populated = false ∧ (after.dev.aesdCb.slot index).size = 0 ∧
        (after.dev.aesdCb.slot index).buffptr = (system.world.dev.aesdCb.slot index).buffptr := by
  have h := run_represents hRun
  have hOwned := h.owned (granted_mxLock hGranted hRun)
  refine ⟨hOwned, aesdWrite_ne_fault h, aesdRead_ne_fault h.ring, ?_⟩
  obtain ⟨after, hCleanup, hSlot, hLive⟩ :=
    cleanupLoop_spec aesdcharMaxWriteOperationsSupported 0 rfl hOwned.slotsLive
  refine ⟨after, hCleanup, fun index id hPtr hKept => ?_, fun index => ?_⟩
  · rcases Nat.lt_or_ge index (min (logOf trace).commands.length aesdcharMaxWriteOperationsSupported)
      with hUsed | hVacant
    · exact ((hLive id).mp hKept).2 index (Nat.zero_le _) (by omega)
        (hOwned.occupied index hUsed).nonempty hPtr
    · rw [hOwned.vacant index hVacant] at hPtr
      cases hPtr
  · have hCleared : after.dev.aesdCb.slot index = ⟨(system.world.dev.aesdCb.slot index).buffptr, 0⟩ := by
      rw [hSlot]
      split
      · rfl
      · next hBound =>
        rw [hOwned.vacant index (by omega)]
        rfl
    rw [hCleared]
    exact ⟨by simp [AesdBufferEntry.populated], rfl, rfl⟩

/-- Lines of two bytes, each with a first byte of its own. -/
def lineWrites (count : Nat) : List Op :=
  (List.range count).map fun number => .write 0 (wholeWrite [97 + number.toUInt8, newline])

/-- Eleven lines and one byte: the ring is full, its oldest block was freed
once, and the clean-up leaves slot 0 with the address of the eleventh. -/
theorem ownership_wrapped : ∃ trace system,
    run System.exec (lineWrites 11 ++ [.write 0 (wholeWrite [120])]) System.initial = .ok (trace, system) ∧
      system.world.dev.aesdCb.full = true ∧ system.world.dev.tmpSize = 1 ∧
      Owned system.world 11 ∧ (∀ call filp, aesdRead call system.world filp ≠ .error .fault) ∧
      ∃ after, aesdCleanupModule system.world = .ok after ∧ ¬ after.heap.Live 10 ∧
        (after.dev.aesdCb.slot 0).size = 0 ∧ (after.dev.aesdCb.slot 0).buffptr = .block 10 := by
  obtain ⟨trace, system, hRun, hCommands, hFull, hPending, hSlot⟩ : ∃ trace system,
      run System.exec (lineWrites 11 ++ [.write 0 (wholeWrite [120])]) System.initial = .ok (trace, system) ∧
        (logOf trace).commands.length = 11 ∧ system.world.dev.aesdCb.full = true ∧
        system.world.dev.tmpSize = 1 ∧ (system.world.dev.aesdCb.slot 0).buffptr = .block 10 :=
    ⟨_, _, rfl, rfl, rfl, rfl, rfl⟩
  have hGranted : ∀ op ∈ lineWrites 11 ++ [.write 0 (wholeWrite [120])], op.Granted := by
    intro op hOp fd call hWrite
    subst hWrite
    rcases List.mem_append.mp hOp with hLine | hLast
    · obtain ⟨number, _, hSame⟩ := List.mem_map.mp hLine
      cases hSame
      rfl
    · cases List.mem_singleton.mp hLast
      rfl
  obtain ⟨hOwned, _, hRead, after, hCleanup, hFreed, hCleared⟩ := ownership _ trace system hGranted hRun
  rw [hCommands] at hOwned
  obtain ⟨_, hSize, hPtr⟩ := hCleared 0
  exact ⟨trace, system, hRun, hFull, hPending, hOwned, hRead, after, hCleanup, hFreed 0 10 hSlot, hSize,
    hPtr.trans hSlot⟩

/-- The clean-up sets the size of a slot to zero but leaves its pointer, which
then refers to a block that was freed. -/
theorem not_live_after_cleanup : ¬ ∀ (ops : List Op) (trace : List (Op × Reply)) (system : System)
    (after : World), (∀ op ∈ ops, op.Granted) →
    run System.exec ops System.initial = .ok (trace, system) →
    aesdCleanupModule system.world = .ok after →
    ∀ index id, (after.dev.aesdCb.slot index).buffptr = .block id → after.heap.Live id := by
  intro hClaim
  obtain ⟨trace, system, hRun, after, hCleanup, hPtr, hFreed⟩ : ∃ trace system,
      run System.exec [.write 0 (wholeWrite [97, newline])] System.initial = .ok (trace, system) ∧
      ∃ after, aesdCleanupModule system.world = .ok after ∧
        (after.dev.aesdCb.slot 0).buffptr = .block 0 ∧ after.heap.block 0 = none :=
    ⟨_, _, rfl, _, rfl, rfl, rfl⟩
  have hLive := hClaim _ trace system after (by
    intro op hOp fd call hWrite
    rw [List.mem_singleton.mp hOp] at hWrite
    cases hWrite
    rfl) hRun hCleanup 0 0 hPtr
  rw [Heap.Live, hFreed] at hLive
  cases hLive

end Aesd
