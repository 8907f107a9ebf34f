import Aesd.Driver.Ownership

/-! Which allocations a run of writes loses. A block is lost once neither the
temporary buffer nor a slot refers to it: nothing can free it any more. -/
namespace Aesd
open Kernel Word Memory Execution CommandLog

/-- A live block that no pointer of the device refers to. -/
def World.Lost (world : World) (id : Nat) : Prop :=
  world.heap.Live id ∧ world.dev.tmpBuf ≠ .block id ∧
    ∀ index, (world.dev.aesdCb.slot index).buffptr ≠ .block id

/-- Each live block is the temporary buffer or belongs to exactly one slot. -/
def World.Accounted (world : World) : Prop :=
  ∀ id, world.heap.Live id → world.dev.tmpBuf = .block id ∨
    ∃! index, (world.dev.aesdCb.slot index).buffptr = .block id

/-- The call gets to the allocation while the temporary buffer has a block,
and overwrites the pointer: where the size says that nothing is pending it
asks for a new block, and where the old one can not grow it stores null. -/
def WriteCall.Loses (call : WriteCall) (dev : AesdDev) : Prop :=
  call.buf ≠ none ∧ call.interrupted = false ∧ (dev.tmpSize = 0 ∨ call.granted = false) ∧
    ∃ id, dev.tmpBuf = .block id

/-- After every part of the run each block is accounted for, and the clean-up
after the whole run leaves none. -/
structure NothingLost (calls : List WriteCall) : Prop where
  accounted : ∀ before after trace world, calls = before ++ after →
    run aesdWrite before World.initial = .ok (trace, world) → world.Accounted
  freed : ∀ trace world, run aesdWrite calls World.initial = .ok (trace, world) →
    ∃ after, aesdCleanupModule world = .ok after ∧ ∀ id, ¬ after.heap.Live id

/-- The block of the temporary buffer is live and belongs to no slot, also
when the size of the buffer is zero. -/
def TmpOwned (world : World) : Prop :=
  ∀ id, world.dev.tmpBuf = .block id →
    world.heap.Live id ∧ ∀ index, (world.dev.aesdCb.slot index).buffptr ≠ .block id

variable {world next : World} {commands : List (List Byte)} {bytes buf : List Byte} {log : WriteLog}
  {call : WriteCall} {calls : List WriteCall} {id : Nat} {retval : Int} {trace : List (WriteCall × Int)}

theorem RingHolds.accounted_iff (h : RingHolds world commands) :
    world.Accounted ↔ ∀ id, ¬ world.Lost id := by
  constructor
  · rintro hAccounted id ⟨hLive, hTmp, hSlots⟩
    rcases hAccounted id hLive with hOwner | ⟨index, hOwner, _⟩
    · exact hTmp hOwner
    · exact hSlots index hOwner
  · intro hNone id hLive
    by_contra hUnowned
    obtain ⟨hTmp, hSlots⟩ := not_or.mp hUnowned
    refine hNone id ⟨hLive, hTmp, fun index hPtr => hSlots ⟨index, hPtr, fun other hOther => ?_⟩⟩
    exact h.separate other index id hOther hPtr

/-- Clearing and copying change no allocation. -/
theorem fill_live {ptr : Ptr} {offset count copied missing : Nat} {heap cleared filled : Heap Byte}
    {data : List Byte} (hClear : memset ptr offset 0 count heap = .ok cleared)
    (hCopy : copyFromUser ptr offset data copied cleared = .ok (missing, filled)) :
    filled.Live id ↔ heap.Live id := by
  obtain ⟨_, hStore, hResult⟩ := bind_ok_iff.mp hCopy
  cases hResult
  rw [store_live hStore, store_live hClear]

/-- What the filling does to the allocations: the new pointer has a block of
its own, and the old one is freed only where it was grown. -/
theorem fillTmpBuf_live {filled : Option Nat}
    (hTmp : 0 < world.dev.tmpSize → ∃ id, world.dev.tmpBuf = .block id)
    (hFill : fillTmpBuf call buf world = .ok (filled, next)) :
    next.heap.Live id ↔ next.dev.tmpBuf = .block id ∨ world.heap.Live id ∧
      (0 < world.dev.tmpSize → call.granted = true → world.dev.tmpBuf ≠ .block id) := by
  unfold fillTmpBuf at hFill
  dsimp only at hFill
  split at hFill
  · next hPending =>
    obtain ⟨old, hOld⟩ := hTmp hPending
    obtain ⟨⟨tmpBuf, heap⟩, hRealloc, hFill⟩ := bind_ok_iff.mp hFill
    rw [hOld] at hRealloc
    have hNew : heap.Live id ↔ tmpBuf = .block id ∨ world.heap.Live id ∧
        (0 < world.dev.tmpSize → call.granted = true → world.dev.tmpBuf ≠ .block id) := by
      rw [krealloc_live (by omega) hRealloc, hOld]
      simp [hPending, @eq_comm _ old id]
    dsimp only at hFill
    split at hFill
    · cases hFill
      exact hNew
    · obtain ⟨cleared, hClear, hFill⟩ := bind_ok_iff.mp hFill
      obtain ⟨⟨missing, copied⟩, hCopy, hFill⟩ := bind_ok_iff.mp hFill
      cases hFill
      exact (fill_live hClear hCopy).trans hNew
  · next hEmpty =>
    have hNew : ∀ tmpBuf heap, kmalloc call.granted call.junk buf.length world.heap = (tmpBuf, heap) →
        (heap.Live id ↔ tmpBuf = .block id ∨ world.heap.Live id ∧
          (0 < world.dev.tmpSize → call.granted = true → world.dev.tmpBuf ≠ .block id)) := by
      intro tmpBuf heap hAlloc
      rw [kmalloc_live hAlloc]
      simp [hEmpty]
    split at hFill
    · cases hFill
      exact hNew _ _ rfl
    · obtain ⟨cleared, hClear, hFill⟩ := bind_ok_iff.mp hFill
      obtain ⟨⟨missing, copied⟩, hCopy, hFill⟩ := bind_ok_iff.mp hFill
      cases hFill
      exact (fill_live hClear hCopy).trans (hNew _ _ rfl)

/-- A filling loses exactly the block whose pointer it overwrites without
having grown the block. -/
theorem fillTmpBuf_lost {filled : Option Nat} (hRing : RingHolds world commands) (hOwned : TmpOwned world)
    (hTmp : 0 < world.dev.tmpSize → ∃ id, world.dev.tmpBuf = .block id)
    (hFresh : ∀ id, next.dev.tmpBuf = .block id → ¬ world.heap.Live id)
    (hCb : next.dev.aesdCb = world.dev.aesdCb)
    (hFill : fillTmpBuf call buf world = .ok (filled, next)) :
    TmpOwned next ∧ ∀ id, next.Lost id ↔ world.Lost id ∨
      world.dev.tmpBuf = .block id ∧ (world.dev.tmpSize = 0 ∨ call.granted = false) := by
  refine ⟨fun id hPtr => ⟨(fillTmpBuf_live hTmp hFill).mpr (Or.inl hPtr), fun index hSlot => ?_⟩,
    fun id => ?_⟩
  · rw [hCb] at hSlot
    exact hFresh id hPtr (hRing.live hSlot)
  · rw [World.Lost, World.Lost, fillTmpBuf_live hTmp hFill, hCb]
    constructor
    · rintro ⟨hNew | ⟨hLive, hFreed⟩, hTmpBuf, hSlots⟩
      · exact absurd hNew hTmpBuf
      · by_cases hPtr : world.dev.tmpBuf = .block id
        · refine Or.inr ⟨hPtr, ?_⟩
          by_contra hGrown
          obtain ⟨hSize, hGranted⟩ := not_or.mp hGrown
          exact hFreed (Nat.pos_of_ne_zero hSize) (Bool.not_eq_false _ ▸ hGranted) hPtr
        · exact Or.inl ⟨hLive, hPtr, hSlots⟩
    · rintro (⟨hLive, hPtr, hSlots⟩ | ⟨hPtr, hKept⟩)
      · exact ⟨Or.inr ⟨hLive, fun _ _ => hPtr⟩, fun hNew => hFresh id hNew hLive, hSlots⟩
      · obtain ⟨hLive, hSlots⟩ := hOwned id hPtr
        refine ⟨Or.inr ⟨hLive, fun hSize hGranted => ?_⟩, fun hNew => hFresh id hNew hLive, hSlots⟩
        rcases hKept with hEmpty | hRefused
        · omega
        · rw [hGranted] at hRefused
          cases hRefused

/-- Committing hands the block of the temporary buffer over to a slot and
frees the block that the slot had, so it loses nothing. -/
theorem commitTmpBuf_lost (hRing : RingHolds world commands) (hTmp : TmpHolds world bytes)
    (hOwned : TmpOwned world) (hCommit : commitTmpBuf world = .ok next) :
    TmpOwned next ∧ ∀ id, next.Lost id ↔ world.Lost id := by
  by_cases hNewline : newline ∈ bytes
  · obtain ⟨heap, aesdCb, hRun, _, hSlot, hBlock⟩ := commitTmpBuf_of_mem hRing hTmp hNewline
    obtain rfl := Except.ok.inj (hRun.symm.trans hCommit)
    refine ⟨fun id hPtr => (by cases hPtr), fun id => ?_⟩
    have hLive : heap.Live id ↔ world.heap.Live id ∧ (world.dev.aesdCb.slot
        (commands.length % aesdcharMaxWriteOperationsSupported)).buffptr ≠ .block id := by
      rw [Heap.Live, hBlock]
      split
      · next hFreed => simp [hFreed]
      · next hKept => simp [hKept, Heap.Live]
    constructor
    · rintro ⟨hAfter, _, hSlots⟩
      obtain ⟨hBefore, hOldest⟩ := hLive.mp hAfter
      refine ⟨hBefore, fun hPtr => ?_, fun index hPtr => ?_⟩
      · exact hSlots (commands.length % aesdcharMaxWriteOperationsSupported) (by simpa [hSlot] using hPtr)
      · refine hSlots index ?_
        rw [hSlot, if_neg]
        · exact hPtr
        · rintro rfl
          exact hOldest hPtr
    · rintro ⟨hBefore, hPtr, hSlots⟩
      refine ⟨hLive.mpr ⟨hBefore, hSlots _⟩, by simp, fun index => ?_⟩
      simp only [hSlot]
      split
      · exact hPtr
      · exact hSlots index
  · rw [commitTmpBuf_of_not_mem hTmp hNewline] at hCommit
    obtain rfl := Except.ok.inj hCommit
    exact ⟨hOwned, fun id => Iff.rfl⟩

/-- One write loses the block of the temporary buffer, or nothing. -/
theorem aesdWrite_lost (h : Represents world log) (hOwned : TmpOwned world)
    (hWrite : aesdWrite call world = .ok (retval, next)) :
    TmpOwned next ∧ ∀ id, next.Lost id ↔
      world.Lost id ∨ call.Loses world.dev ∧ world.dev.tmpBuf = .block id := by
  have hSame : ¬ call.Loses world.dev → ∀ id, (world.Lost id ↔
      world.Lost id ∨ call.Loses world.dev ∧ world.dev.tmpBuf = .block id) :=
    fun hKeeps id => by simp [hKeeps]
  -- with the lock, a filling loses what the call loses
  have hFilled : ∀ {buf filled middle}, call.buf = some buf → call.interrupted = false →
      world.dev.mxLock = false → (∀ id, middle.dev.tmpBuf = .block id → ¬ world.heap.Live id) →
      middle.dev.aesdCb = world.dev.aesdCb →
      fillTmpBuf call buf ⟨world.heap, { world.dev with mxLock := true }⟩ = .ok (filled, middle) →
      TmpOwned middle ∧ ∀ id, middle.Lost id ↔
        world.Lost id ∨ call.Loses world.dev ∧ world.dev.tmpBuf = .block id := by
    intro buf filled middle hBuf hInterrupted hLock hFresh hCb hFill
    have hPending : 0 < world.dev.tmpSize → ∃ id, world.dev.tmpBuf = .block id := by
      intro hSome
      obtain ⟨id, hPtr, _⟩ := block_of_load hSome (h.tmp hLock).pending
      exact ⟨id, hPtr⟩
    have hRing : RingHolds ⟨world.heap, { world.dev with mxLock := true }⟩ log.commands :=
      h.ring.congr rfl fun _ _ _ => rfl
    obtain ⟨hMiddle, hLost⟩ := fillTmpBuf_lost hRing hOwned hPending hFresh hCb hFill
    refine ⟨hMiddle, fun id => (hLost id).trans (or_congr Iff.rfl ⟨?_, ?_⟩)⟩
    · rintro ⟨hPtr, hOverwritten⟩
      exact ⟨⟨by simp [hBuf], hInterrupted, hOverwritten, id, hPtr⟩, hPtr⟩
    · rintro ⟨⟨_, _, hOverwritten, _⟩, hPtr⟩
      exact ⟨hPtr, hOverwritten⟩
  have hOutcome := aesdWrite_outcome h call
  rw [hWrite] at hOutcome
  cases hOutcome with
  | noBuffer hBuf => exact ⟨hOwned, hSame fun hLoses => hLoses.1 hBuf⟩
  | interrupted buf hBuf hInterrupted =>
      refine ⟨hOwned, hSame fun hLoses => ?_⟩
      rw [hLoses.2.1] at hInterrupted
      cases hInterrupted
  | refused buf hBuf hInterrupted hLock hMemory =>
      obtain ⟨hSize, hPending, hSeparate⟩ := h.tmp hLock
      have hFill := @fillTmpBuf_refused ⟨world.heap, { world.dev with mxLock := true }⟩
        log.pending buf call ⟨hSize, hPending, hSeparate⟩ hMemory
      exact hFilled hBuf hInterrupted hLock (fun id hPtr => (by cases hPtr)) rfl hFill
  | served buf hBuf hInterrupted hLock hMemory =>
      obtain ⟨hSize, hPending, hSeparate⟩ := h.tmp hLock
      obtain ⟨tmpBuf, middle, hFill, hDev, hFresh, hRing, hTmp⟩ :=
        @fillTmpBuf_holds ⟨world.heap, { world.dev with mxLock := true }⟩ log.commands log.pending buf call
          (h.ring.congr rfl fun _ _ _ => rfl) ⟨hSize, hPending, hSeparate⟩ hMemory
      obtain ⟨hMiddle, hLost⟩ := hFilled hBuf hInterrupted hLock (by simpa [hDev] using hFresh)
        (by rw [hDev]) hFill
      rw [aesdWrite_filled hBuf hInterrupted hLock hFill] at hWrite
      obtain ⟨committed, hCommit, hResult⟩ := bind_ok_iff.mp hWrite
      cases hResult
      obtain ⟨hCommitted, hKept⟩ := commitTmpBuf_lost hRing hTmp hMiddle hCommit
      exact ⟨hCommitted, fun id => (hKept id).trans (hLost id)⟩

/-- In a run of writes the device represents a log, and the temporary buffer
has a block of its own or none. -/
theorem run_tmpOwned (hRun : run aesdWrite calls World.initial = .ok (trace, world)) :
    (∃ log, Represents world log) ∧ TmpOwned world := by
  refine run_induct (fun _ world => (∃ log, Represents world log) ∧ TmpOwned world) ?_ []
    ⟨⟨_, represents_initial⟩, fun id hPtr => by cases hPtr⟩ along_true hRun
  rintro history middle call retval after ⟨⟨log, hState⟩, hOwned⟩ hStep _
  have hReply : aesdWrite call middle = .ok ((⟨retval, []⟩ : Reply).retval, after) := hStep
  exact ⟨⟨_, @write_represents _ _ 0 _ _ _ hState hReply⟩, (aesdWrite_lost hState hOwned hStep).1⟩

/-- A run without a call that loses a block has lost none. -/
theorem run_noneLost
    (hAlong : Along aesdWrite (fun world call _ => ¬ call.Loses world.dev) calls World.initial)
    (hRun : run aesdWrite calls World.initial = .ok (trace, world)) : ∀ id, ¬ world.Lost id := by
  have hInvariant := run_induct
    (fun _ world => ((∃ log, Represents world log) ∧ TmpOwned world) ∧ ∀ id, ¬ world.Lost id) ?_ []
    ⟨⟨⟨_, represents_initial⟩, fun id hPtr => by cases hPtr⟩, fun id hLost => by cases hLost.1⟩
    hAlong hRun
  · exact hInvariant.2
  · rintro history middle call retval after ⟨⟨⟨log, hState⟩, hOwned⟩, hNone⟩ hStep hKeeps
    have hReply : aesdWrite call middle = .ok ((⟨retval, []⟩ : Reply).retval, after) := hStep
    obtain ⟨hAfter, hLost⟩ := aesdWrite_lost hState hOwned hStep
    refine ⟨⟨⟨_, @write_represents _ _ 0 _ _ _ hState hReply⟩, hAfter⟩, fun id hGone => ?_⟩
    rcases (hLost id).mp hGone with hBefore | ⟨hLoses, _⟩
    · exact hNone id hBefore
    · exact hKeeps hLoses

/-- The clean-up frees the blocks of the slots and no others. -/
theorem RingHolds.cleanup (h : RingHolds world commands) :
    ∃ after, aesdCleanupModule world = .ok after ∧ ∀ id, after.heap.Live id ↔
      world.heap.Live id ∧ ∀ index, (world.dev.aesdCb.slot index).buffptr ≠ .block id := by
  have hSize : ∀ index id, (world.dev.aesdCb.slot index).buffptr = .block id →
      index < aesdcharMaxWriteOperationsSupported ∧ 0 < (world.dev.aesdCb.slot index).size := by
    intro index id hPtr
    obtain ⟨hBound, command, hMem, hSlot, _⟩ := h.of_block hPtr
    rw [hSlot]
    exact ⟨hBound, List.length_pos_of_ne_nil (h.nonempty command hMem)⟩
  have hSlots : SlotsLive world 0 := by
    refine ⟨fun index _ hBound hSome => ?_, h.separate⟩
    by_cases hWritten : index < commands.length
    · obtain ⟨command, _, id, hSlot, hLoad⟩ := h.occupied hBound hWritten
      rw [hSlot]
      exact ⟨id, rfl, Heap.live_of_load hLoad⟩
    · rw [h.vacant (Or.inr (Nat.le_of_not_lt hWritten))] at hSome
      cases hSome
  obtain ⟨after, hRun, _, hLive⟩ := cleanupLoop_spec aesdcharMaxWriteOperationsSupported 0 rfl hSlots
  refine ⟨after, hRun, fun id => (hLive id).trans (and_congr_right fun _ => ⟨fun hFreed index hPtr => ?_,
    fun hFreed index _ _ _ => hFreed index⟩)⟩
  obtain ⟨hBound, hSome⟩ := hSize index id hPtr
  exact hFreed index (Nat.zero_le _) hBound hSome hPtr

/-- Nothing is lost exactly where no write of the run meets a pointer that it
overwrites, and no block is pending at the clean-up. -/
theorem nothingLost_iff (calls : List WriteCall) :
    NothingLost calls ↔
      Along aesdWrite (fun world call _ => ¬ call.Loses world.dev) calls World.initial ∧
      ∀ trace world, run aesdWrite calls World.initial = .ok (trace, world) →
        ∀ id, world.dev.tmpBuf ≠ .block id := by
  constructor
  · rintro ⟨hAccounted, hFreed⟩
    refine ⟨along_iff_split.mpr ?_, fun trace world hRun id hPtr => ?_⟩
    · intro before call after trace middle retval next hCalls hRun hStep hLoses
      obtain ⟨⟨log, hState⟩, hOwned⟩ := run_tmpOwned hRun
      obtain ⟨_, _, _, id, hPtr⟩ := id hLoses
      have hLost := ((aesdWrite_lost hState hOwned hStep).2 id).mpr (Or.inr ⟨hLoses, hPtr⟩)
      have hLonger := run_append_ok_iff.mpr ⟨_, _, _, hRun, run_cons_of_ok hStep run_nil, rfl⟩
      obtain ⟨⟨_, hNext⟩, _⟩ := run_tmpOwned hLonger
      exact hNext.ring.accounted_iff.mp
        (hAccounted (before ++ [call]) after _ next (by simp [hCalls]) hLonger) id hLost
    · obtain ⟨⟨log, hState⟩, hOwned⟩ := run_tmpOwned hRun
      obtain ⟨after, hCleanup, hNone⟩ := hFreed trace world hRun
      obtain ⟨same, hSame, hLive⟩ := hState.ring.cleanup
      obtain rfl := Except.ok.inj (hSame.symm.trans hCleanup)
      exact hNone id ((hLive id).mpr (hOwned id hPtr))
  · rintro ⟨hAlong, hPending⟩
    refine ⟨fun before after trace world hCalls hRun => ?_, fun trace world hRun => ?_⟩
    · obtain ⟨⟨_, hState⟩, _⟩ := run_tmpOwned hRun
      rw [hCalls] at hAlong
      exact hState.ring.accounted_iff.mpr (run_noneLost (along_of_append hAlong) hRun)
    · obtain ⟨⟨_, hState⟩, _⟩ := run_tmpOwned hRun
      obtain ⟨after, hCleanup, hLive⟩ := hState.ring.cleanup
      refine ⟨after, hCleanup, fun id hKept => ?_⟩
      obtain ⟨hBefore, hSlots⟩ := (hLive id).mp hKept
      exact run_noneLost hAlong hRun id ⟨hBefore, hPending trace world hRun id, hSlots⟩

/-- The bytes of a command without its end are still allocated when the
module is gone. -/
theorem not_nothingLost : ¬ ∀ calls, NothingLost calls := by
  intro hClaim
  obtain ⟨trace, world, hRun, hPtr⟩ : ∃ trace world,
      run aesdWrite [wholeWrite [97]] World.initial = .ok (trace, world) ∧
        ∃ after, aesdCleanupModule world = .ok after ∧ after.heap.Live 0 :=
    ⟨_, _, rfl, _, rfl, rfl⟩
  obtain ⟨after, hCleanup, hLive⟩ := hPtr
  obtain ⟨same, hSame, hNone⟩ := (hClaim [wholeWrite [97]]).freed trace world hRun
  obtain rfl := Except.ok.inj (hSame.symm.trans hCleanup)
  exact hNone 0 hLive

end Aesd
