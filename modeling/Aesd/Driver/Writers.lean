import Aesd.Driver.Runs
import Mathlib.Logic.Function.Basic

/-! Calls of `aesd_write` by several processes at once. A step is one call or
one assignment of one of them; only what nobody looks at without the lock is
done in one step. -/
namespace Aesd
open Kernel Word Memory Execution CommandLog

/-- The statement that a call comes to next. `retval` is what was copied, and
`bufferSize` what was loaded of the counter. -/
inductive WriteAt where
  | entering
  | filling
  | searching (retval : Nat)
  | freeing (retval : Nat)
  | emptying (retval : Nat)
  | addingEntry (retval : Nat)
  | wrappingOut (retval : Nat)
  | storing (retval : Nat)
  | advancingIn (retval : Nat)
  | wrappingIn (retval : Nat)
  | flagging (retval : Nat)
  | clearing (retval : Nat)
  | unlocking (retval : Nat)
  | counting (retval : Nat)
  | updating (retval bufferSize : Nat)
  | returned (retval : Int)
  deriving DecidableEq, Repr

/-- Why a step is not taken: the lock is held, the call has returned, or it
does what it must not. -/
inductive WriteHalt where
  | mutex
  | order
  | device (stop : Stop)
  deriving DecidableEq, Repr

def World.withCb (world : World) (aesdCb : AesdCircularBuffer) : World :=
  { world with dev := { world.dev with aesdCb } }

/-- Free the string that the next entry displaces. -/
def freeDisplaced (world : World) : Except Stop (Heap Byte) :=
  let entry := world.dev.aesdCb.slot world.dev.aesdCb.inOffs
  if entry.buffptr ≠ .null then kfree entry.buffptr world.heap else .ok world.heap

/-- One step of a call. The offsets are bytes. -/
def writeStep (call : WriteCall) : WriteAt → World → Except WriteHalt (WriteAt × World)
  | .entering, world =>
      if call.buf = none then .ok (.returned (-EFAULT), world)
      else match mutexLockInterruptible call.interrupted world.dev with
      | .error _ => .error .mutex
      | .ok (true, dev) => .ok (.returned (-ERESTARTSYS), { world with dev })
      | .ok (false, dev) => .ok (.filling, { world with dev })
  | .filling, world =>
      match fillTmpBuf call (call.buf.getD []) world with
      | .error stop => .error (.device stop)
      | .ok (none, world) => .ok (.returned (-ENOMEM), world)
      | .ok (some retval, world) => .ok (.searching retval, world)
  | .searching retval, world =>
      match memchr world.dev.tmpBuf newline world.dev.tmpSize world.heap with
      | .error stop => .error (.device stop)
      | .ok false => .ok (.unlocking retval, world)
      | .ok true => .ok (if world.dev.aesdCb.full then .freeing retval else .addingEntry retval, world)
  | .freeing retval, world =>
      match freeDisplaced world with
      | .error stop => .error (.device stop)
      | .ok heap => .ok (.emptying retval, { world with heap })
  | .emptying retval, world =>
      let inPos := world.dev.aesdCb.inOffs
      .ok (.addingEntry retval, world.withCb
        (world.dev.aesdCb.setSlot inPos { world.dev.aesdCb.slot inPos with size := 0 }))
  | .addingEntry retval, world =>
      let buffer := world.dev.aesdCb
      if buffer.full then
        .ok (.wrappingOut retval, world.withCb { buffer with outOffs := (buffer.outOffs + 1) % 256 })
      else .ok (.storing retval, world)
  | .wrappingOut retval, world =>
      let buffer := world.dev.aesdCb
      .ok (.storing retval, world.withCb { buffer with
        outOffs := if buffer.outOffs = aesdcharMaxWriteOperationsSupported then 0 else buffer.outOffs })
  | .storing retval, world =>
      .ok (.advancingIn retval, world.withCb (world.dev.aesdCb.setSlot world.dev.aesdCb.inOffs
        ⟨world.dev.tmpBuf, world.dev.tmpSize⟩))
  | .advancingIn retval, world =>
      let buffer := world.dev.aesdCb
      .ok (.wrappingIn retval, world.withCb { buffer with inOffs := (buffer.inOffs + 1) % 256 })
  | .wrappingIn retval, world =>
      let buffer := world.dev.aesdCb
      .ok (.flagging retval, world.withCb { buffer with
        inOffs := if buffer.inOffs = aesdcharMaxWriteOperationsSupported then 0 else buffer.inOffs })
  | .flagging retval, world =>
      let buffer := world.dev.aesdCb
      .ok (.clearing retval, world.withCb { buffer with
        full := if buffer.inOffs = buffer.outOffs then true else buffer.full })
  | .clearing retval, world =>
      .ok (.unlocking retval, { world with dev := { world.dev with tmpBuf := .null, tmpSize := 0 } })
  | .unlocking retval, world => .ok (.counting retval, { world with dev := mutexUnlock world.dev })
  | .counting retval, world => .ok (.updating retval world.dev.bufferSize, world)
  | .updating retval bufferSize, world =>
      .ok (.returned retval, { world with dev := { world.dev with
        bufferSize := unsigned64 (bufferSize + retval) } })
  | .returned _, _ => .error .order

/-- The device and its callers. -/
structure Writers where
  world : World
  point : Nat → WriteAt

def Writers.initial : Writers := ⟨World.initial, fun _ => .entering⟩

/-- A step of one of the processes, which answers with where it is then. -/
def writers (call : Nat → WriteCall) : Machine WriteHalt Nat WriteAt Writers
  | process, state =>
      match writeStep (call process) (state.point process) state.world with
      | .error halt => .error halt
      | .ok (point, world) => .ok (point, ⟨world, Function.update state.point process point⟩)

/-- A call that nobody interferes with, up to its return. -/
def writeAlone (call : WriteCall) : Nat → WriteAt → World → Except WriteHalt (Int × World)
  | _, .returned retval, world => .ok (retval, world)
  | 0, _, _ => .error .order
  | steps + 1, point, world =>
      match writeStep call point world with
      | .error halt => .error halt
      | .ok (point, world) => writeAlone call steps point world

variable {call : WriteCall} {world filled freed result : World} {retval : Nat} {steps : Nat} {answer : Int}
  {process : Nat} {state next : Writers} {calls : Nat → WriteCall} {point : WriteAt}

theorem writeAlone_step {after : WriteAt} (h : writeStep call point world = .ok (after, result)) :
    writeAlone call (steps + 1) point world = writeAlone call steps after result := by
  cases point with
  | returned retval => cases h
  | _ => simp only [writeAlone, h]

@[simp] theorem writeAlone_returned : writeAlone call steps (.returned answer) world = .ok (answer, world) := by
  cases steps <;> rfl

/-- The statements from the addition of the entry on, with nobody between. -/
theorem writeAlone_addingEntry : writeAlone call (steps + 10) (.addingEntry retval) world =
    .ok ((retval : Int), { world with dev := { mutexUnlock world.dev with
      aesdCb := (aesdCircularBufferAddEntry world.dev.aesdCb ⟨world.dev.tmpBuf, world.dev.tmpSize⟩).2
      tmpBuf := .null, tmpSize := 0, bufferSize := unsigned64 (world.dev.bufferSize + retval) } }) := by
  cases hFull : world.dev.aesdCb.full with
  | true =>
      simp only [writeAlone, writeStep, hFull, ↓reduceIte, World.withCb, mutexUnlock,
        aesdCircularBufferAddEntry, nextOffs, AesdCircularBuffer.setSlot]
  | false =>
      simp only [writeAlone, writeStep, hFull, ↓reduceIte, World.withCb, mutexUnlock,
        aesdCircularBufferAddEntry, nextOffs, AesdCircularBuffer.setSlot, Bool.false_eq_true]

theorem freeOldest_of_full (hFull : world.dev.aesdCb.full = true) :
    freeOldest world = freeDisplaced world >>= fun heap => .ok (({ world with heap } : World).withCb
      (world.dev.aesdCb.setSlot world.dev.aesdCb.inOffs
        { world.dev.aesdCb.slot world.dev.aesdCb.inOffs with size := 0 })) := by
  simp only [freeOldest, hFull, ↓reduceIte, freeDisplaced]
  split
  · rfl
  · rfl

/-- The search for a newline and what it leads to, with nobody between. -/
theorem writeAlone_searching (hCommit : commitTmpBuf world = .ok result) :
    writeAlone call 13 (.searching retval) world = .ok ((retval : Int), { result with
      dev := { mutexUnlock result.dev with bufferSize := unsigned64 (result.dev.bufferSize + retval) } }) := by
  obtain ⟨found, hFound, hRest⟩ := bind_ok_iff.mp hCommit
  cases found with
  | false =>
      cases hRest
      have hStep : writeStep call (.searching retval) world = .ok (.unlocking retval, world) := by
        simp only [writeStep, hFound]
      rw [writeAlone_step hStep]
      simp only [writeAlone, writeStep, mutexUnlock]
  | true =>
      obtain ⟨freed, hFree, hAdd⟩ := bind_ok_iff.mp hRest
      cases hAdd
      have hAdded : ∀ steps, writeAlone call (steps + 10) (.addingEntry retval) freed = .ok ((retval : Int), _) :=
        fun steps => writeAlone_addingEntry
      cases hFull : world.dev.aesdCb.full with
      | false =>
          simp only [freeOldest, hFull, Bool.false_eq_true, ↓reduceIte] at hFree
          cases hFree
          have hStep : writeStep call (.searching retval) world = .ok (.addingEntry retval, world) := by
            simp only [writeStep, hFound, hFull, Bool.false_eq_true, ↓reduceIte]
          rw [writeAlone_step hStep, hAdded 2]
          rfl
      | true =>
          rw [freeOldest_of_full hFull] at hFree
          obtain ⟨heap, hHeap, hFreed⟩ := bind_ok_iff.mp hFree
          cases hFreed
          have hStep : writeStep call (.searching retval) world = .ok (.freeing retval, world) := by
            simp only [writeStep, hFound, hFull, ↓reduceIte]
          have hFreeing : writeStep call (.freeing retval) world = .ok (.emptying retval, { world with heap }) := by
            simp only [writeStep, hHeap]
          rw [writeAlone_step hStep, writeAlone_step hFreeing, writeAlone_step rfl]
          exact hAdded 0

/-- Without others, the statements of a call are the call. -/
theorem writeAlone_eq (h : aesdWrite call world = .ok (answer, result)) :
    writeAlone call 15 .entering world = .ok (answer, result) := by
  cases hBuf : call.buf with
  | none =>
      simp only [aesdWrite, hBuf] at h
      cases h
      have hStep : writeStep call .entering world = .ok (.returned (-EFAULT), world) := by
        simp only [writeStep, hBuf, ↓reduceIte]
      rw [writeAlone_step hStep, writeAlone_returned]
  | some buf =>
      simp only [aesdWrite, hBuf] at h
      obtain ⟨⟨failed, dev⟩, hLock, h⟩ := bind_ok_iff.mp h
      cases failed with
      | true =>
          cases h
          have hStep : writeStep call .entering world = .ok (.returned (-ERESTARTSYS), { world with dev }) := by
            simp only [writeStep, hBuf, reduceCtorEq, ↓reduceIte, hLock]
          rw [writeAlone_step hStep, writeAlone_returned]
      | false =>
          have hStep : writeStep call .entering world = .ok (.filling, { world with dev }) := by
            simp only [writeStep, hBuf, reduceCtorEq, ↓reduceIte, hLock]
          obtain ⟨⟨filled, locked⟩, hFill, h⟩ := bind_ok_iff.mp h
          rw [writeAlone_step hStep]
          cases filled with
          | none =>
              cases h
              have hFilling : writeStep call .filling { world with dev } =
                  .ok (.returned (-ENOMEM), locked) := by
                simp only [writeStep, hBuf, Option.getD_some, hFill]
              rw [writeAlone_step hFilling, writeAlone_returned]
          | some retval =>
              obtain ⟨committed, hCommit, h⟩ := bind_ok_iff.mp h
              cases h
              have hFilling : writeStep call .filling { world with dev } =
                  .ok (.searching retval, locked) := by
                simp only [writeStep, hBuf, Option.getD_some, hFill]
              rw [writeAlone_step hFilling]
              exact writeAlone_searching hCommit

end Aesd
