import Aesd.Driver.Writers
import Aesd.Driver.WriteLog

/-! The statements of a write that has the lock. At each of them the device is
a known way from the log that it had when the lock was taken, and every one
of them succeeds. -/
namespace Aesd
open Kernel Word Memory Execution CommandLog

/-- The memory that the call needs after a log is granted, or none is needed. -/
def WriteCall.Funded (call : WriteCall) (log : WriteLog) : Prop :=
  call.granted = true ∨ log.pending.length + (call.buf.getD []).length = 0

/-- The two worlds have the same in what the lock guards. -/
structure World.Same (world other : World) : Prop where
  heap : world.heap = other.heap
  aesdCb : world.dev.aesdCb = other.dev.aesdCb
  tmpBuf : world.dev.tmpBuf = other.dev.tmpBuf
  tmpSize : world.dev.tmpSize = other.dev.tmpSize

/-- The ring and the temporary buffer are those of a log. -/
structure Rests (world : World) (log : WriteLog) : Prop where
  ring : RingHolds world log.commands
  tmp : TmpHolds world log.pending

/-- The pending bytes have their newline. -/
structure Complete (call : WriteCall) (log : WriteLog) (world : World) : Prop where
  ring : RingHolds world log.commands
  tmp : TmpHolds world (log.pending ++ call.accepted)
  newline : newline ∈ log.pending ++ call.accepted
  funded : call.Funded log

namespace AesdCircularBuffer

/-! The buffer on the way through the addition of an entry. -/

def outStepped (buffer : AesdCircularBuffer) : AesdCircularBuffer :=
  { buffer with outOffs := (buffer.outOffs + 1) % 256 }

def outMoved (buffer : AesdCircularBuffer) : AesdCircularBuffer :=
  { buffer with outOffs := if buffer.full then nextOffs buffer.outOffs else buffer.outOffs }

def entryStored (buffer : AesdCircularBuffer) (entry : AesdBufferEntry) : AesdCircularBuffer :=
  buffer.outMoved.setSlot buffer.inOffs entry

def inStepped (buffer : AesdCircularBuffer) (entry : AesdBufferEntry) : AesdCircularBuffer :=
  { buffer.entryStored entry with inOffs := (buffer.inOffs + 1) % 256 }

def inMoved (buffer : AesdCircularBuffer) (entry : AesdBufferEntry) : AesdCircularBuffer :=
  { buffer.entryStored entry with inOffs := nextOffs buffer.inOffs }

end AesdCircularBuffer

/-- Room was made in a device with complete pending bytes; since then the
buffer was changed by `change`, which is given the entry to add. -/
structure Adding (call : WriteCall) (log : WriteLog) (world : World)
    (change : AesdCircularBuffer → AesdBufferEntry → AesdCircularBuffer) (base freed : World) : Prop where
  complete : Complete call log base
  room : freeOldest base = .ok freed
  same : world.Same (freed.withCb (change freed.dev.aesdCb ⟨freed.dev.tmpBuf, freed.dev.tmpSize⟩))

/-- A call that has the lock, at each of its statements. -/
inductive InWrite (call : WriteCall) (log : WriteLog) (world : World) : WriteAt → Prop where
  | filling (h : Rests world log) : InWrite call log world .filling
  | searching (hRing : RingHolds world log.commands) (hTmp : TmpHolds world (log.pending ++ call.accepted))
      (hFunded : call.Funded log) :
      InWrite call log world (.searching call.accepted.length)
  | freeing (h : Complete call log world) (hFull : world.dev.aesdCb.full = true) :
      InWrite call log world (.freeing call.accepted.length)
  | emptying (base : World) (h : Complete call log base) (hFull : base.dev.aesdCb.full = true)
      (hHeap : freeDisplaced base = .ok world.heap) (hSame : world.Same { base with heap := world.heap }) :
      InWrite call log world (.emptying call.accepted.length)
  | addingEntry (base freed : World) (h : Adding call log world (fun buffer _ => buffer) base freed) :
      InWrite call log world (.addingEntry call.accepted.length)
  | wrappingOut (base freed : World) (h : Adding call log world (fun buffer _ => buffer.outStepped) base freed)
      (hFull : freed.dev.aesdCb.full = true) : InWrite call log world (.wrappingOut call.accepted.length)
  | storing (base freed : World) (h : Adding call log world (fun buffer _ => buffer.outMoved) base freed) :
      InWrite call log world (.storing call.accepted.length)
  | advancingIn (base freed : World) (h : Adding call log world AesdCircularBuffer.entryStored base freed) :
      InWrite call log world (.advancingIn call.accepted.length)
  | wrappingIn (base freed : World) (h : Adding call log world AesdCircularBuffer.inStepped base freed) :
      InWrite call log world (.wrappingIn call.accepted.length)
  | flagging (base freed : World) (h : Adding call log world AesdCircularBuffer.inMoved base freed) :
      InWrite call log world (.flagging call.accepted.length)
  | clearing (base freed : World) (h : Adding call log world
      (fun buffer entry => (aesdCircularBufferAddEntry buffer entry).2) base freed) :
      InWrite call log world (.clearing call.accepted.length)
  | unlocking (h : Rests world (log.accept call.accepted)) (hFunded : call.Funded log) :
      InWrite call log world (.unlocking call.accepted.length)

variable {calls : Nat → WriteCall} {call : WriteCall} {log : WriteLog} {world other base freed result : World}
  {commands : List (List Byte)} {bytes : List Byte} {point after : WriteAt} {process : Nat}
  {change : AesdCircularBuffer → AesdBufferEntry → AesdCircularBuffer}

theorem World.Same.trans {third : World} (h : world.Same other) (hOther : other.Same third) :
    world.Same third :=
  ⟨h.heap.trans hOther.heap, h.aesdCb.trans hOther.aesdCb, h.tmpBuf.trans hOther.tmpBuf,
    h.tmpSize.trans hOther.tmpSize⟩

theorem RingHolds.of_same (h : RingHolds other commands) (hSame : world.Same other) :
    RingHolds world commands :=
  h.congr hSame.aesdCb fun _ _ _ => by rw [hSame.heap]

theorem TmpHolds.of_same (h : TmpHolds other bytes) (hSame : world.Same other) : TmpHolds world bytes where
  size := hSame.tmpSize.trans h.size
  pending := by
    rw [World.pending, hSame.tmpBuf, hSame.tmpSize, hSame.heap]
    exact h.pending
  separate := by
    rw [hSame.tmpBuf, hSame.aesdCb]
    exact h.separate

theorem Rests.of_same (h : Rests other log) (hSame : world.Same other) : Rests world log :=
  ⟨h.ring.of_same hSame, h.tmp.of_same hSame⟩

theorem Complete.of_same (h : Complete call log other) (hSame : world.Same other) : Complete call log world :=
  ⟨h.ring.of_same hSame, h.tmp.of_same hSame, h.newline, h.funded⟩

theorem Adding.of_same (h : Adding call log other change base freed) (hSame : world.Same other) :
    Adding call log world change base freed :=
  ⟨h.complete, h.room, hSame.trans h.same⟩

/-- Nothing that the holder of the lock relies on is anywhere else. -/
theorem InWrite.of_same (h : InWrite call log other point) (hSame : world.Same other) :
    InWrite call log world point := by
  cases h with
  | filling h => exact .filling (h.of_same hSame)
  | searching hRing hTmp hFunded => exact .searching (hRing.of_same hSame) (hTmp.of_same hSame) hFunded
  | freeing h hFull => exact .freeing (h.of_same hSame) (hSame.aesdCb ▸ hFull)
  | emptying base h hFull hHeap hBase =>
      refine .emptying base h hFull (hSame.heap ▸ hHeap) ⟨rfl, ?_, ?_, ?_⟩
      · exact hSame.aesdCb.trans hBase.aesdCb
      · exact hSame.tmpBuf.trans hBase.tmpBuf
      · exact hSame.tmpSize.trans hBase.tmpSize
  | addingEntry base freed h => exact .addingEntry base freed (h.of_same hSame)
  | wrappingOut base freed h hFull => exact .wrappingOut base freed (h.of_same hSame) hFull
  | storing base freed h => exact .storing base freed (h.of_same hSame)
  | advancingIn base freed h => exact .advancingIn base freed (h.of_same hSame)
  | wrappingIn base freed h => exact .wrappingIn base freed (h.of_same hSame)
  | flagging base freed h => exact .flagging base freed (h.of_same hSame)
  | clearing base freed h => exact .clearing base freed (h.of_same hSame)
  | unlocking h hFunded => exact .unlocking (h.of_same hSame) hFunded

theorem World.Same.refl (world : World) : world.Same world := ⟨rfl, rfl, rfl, rfl⟩

/-- Where the next assignment takes the buffer. -/
theorem Adding.withCb {aesdCb : AesdCircularBuffer}
    {assigned : AesdCircularBuffer → AesdBufferEntry → AesdCircularBuffer}
    (h : Adding call log world change base freed)
    (hCb : aesdCb = assigned freed.dev.aesdCb ⟨freed.dev.tmpBuf, freed.dev.tmpSize⟩) :
    Adding call log (world.withCb aesdCb) assigned base freed :=
  ⟨h.complete, h.room, h.same.heap, hCb, h.same.tmpBuf, h.same.tmpSize⟩

theorem Adding.aesdCb (h : Adding call log world change base freed) :
    world.dev.aesdCb = change freed.dev.aesdCb ⟨freed.dev.tmpBuf, freed.dev.tmpSize⟩ := h.same.aesdCb

/-- With the entry added the ring has the pending bytes as its newest command. -/
theorem Adding.added (h : Adding call log world change base freed) :
    RingHolds (freed.withCb (aesdCircularBufferAddEntry freed.dev.aesdCb ⟨freed.dev.tmpBuf, freed.dev.tmpSize⟩).2)
      (log.commands ++ [log.pending ++ call.accepted]) := by
  obtain ⟨heap, aesdCb, hCommit, hRing, _, _⟩ :=
    commitTmpBuf_of_mem h.complete.ring h.complete.tmp h.complete.newline
  obtain ⟨found, hFound, hRest⟩ := bind_ok_iff.mp hCommit
  have hFoundTrue : found = true := by
    have hBytes := h.complete.tmp.pending
    rw [World.pending] at hBytes
    simpa [memchr, hBytes, h.complete.newline, bind, Except.bind, pure, Except.pure, eq_comm] using hFound
  subst hFoundTrue
  simp only [↓reduceIte, h.room, bind, Except.bind, pure, Except.pure, Except.ok.injEq] at hRest
  rw [← hRest] at hRing
  exact hRing.congr rfl fun _ _ _ => rfl

/-- Then the temporary buffer is given up. -/
theorem Adding.cleared (h : Adding call log world
    (fun buffer entry => (aesdCircularBufferAddEntry buffer entry).2) base freed) :
    Rests { world with dev := { world.dev with tmpBuf := .null, tmpSize := 0 } } (log.accept call.accepted) := by
  obtain ⟨hCommands, hPending⟩ := Log.accept_of_mem h.complete.newline
  refine ⟨?_, ?_⟩
  · rw [hCommands]
    exact h.added.congr h.same.aesdCb fun _ _ _ => by rw [h.same.heap]
  · rw [hPending]
    exact tmpHolds_nil rfl

/-- What the holder of the lock does next: it goes on, or it gives the lock
back with its bytes accepted, or it returns for want of memory. -/
inductive Held (call : WriteCall) (log : WriteLog) (world : World) :
    Except WriteHalt (WriteAt × World) → Prop where
  | went (point : WriteAt) (result : World) (hInside : InWrite call log result point) (hOn : point ≠ .filling)
      (hLock : result.dev.mxLock = world.dev.mxLock) : Held call log world (.ok (point, result))
  | unlocked (result : World) (hRests : Rests result (log.accept call.accepted)) (hFunded : call.Funded log)
      (hLock : result.dev.mxLock = false) : Held call log world (.ok (.counting call.accepted.length, result))
  | refused (result : World) (hRing : RingHolds result log.commands) (hFunded : ¬ call.Funded log)
      (hTmpBuf : result.dev.tmpBuf = .null) (hTmpSize : result.dev.tmpSize = log.pending.length)
      (hLock : result.dev.mxLock = world.dev.mxLock) : Held call log world (.ok (.returned (-ENOMEM), result))

theorem WriteCall.funded_iff (hTmp : TmpHolds world log.pending) :
    call.Funded log ↔ call.HasMemory (call.buf.getD []) world.dev := by
  rw [WriteCall.Funded, WriteCall.HasMemory, hTmp.size]

theorem Rests.filling (h : Rests world log) : Held call log world (writeStep call .filling world) := by
  by_cases hMemory : call.HasMemory (call.buf.getD []) world.dev
  · obtain ⟨tmpBuf, filled, hFill, hDev, _, hRing, hTmp⟩ := fillTmpBuf_holds h.ring h.tmp hMemory
    simp only [writeStep, hFill]
    refine .went _ _ (.searching hRing hTmp ((WriteCall.funded_iff h.tmp).mpr hMemory)) (by simp) ?_
    rw [hDev]
  · simp only [writeStep, fillTmpBuf_refused h.tmp hMemory]
    exact .refused _ (h.ring.congr rfl fun _ _ _ => rfl) (mt (WriteCall.funded_iff h.tmp).mp hMemory)
      rfl h.tmp.size rfl

theorem held_searching (hRing : RingHolds world log.commands)
    (hTmp : TmpHolds world (log.pending ++ call.accepted)) (hFunded : call.Funded log) :
    Held call log world (writeStep call (.searching call.accepted.length) world) := by
  have hBytes := hTmp.pending
  rw [World.pending] at hBytes
  by_cases hNewline : newline ∈ log.pending ++ call.accepted
  · have hFound : memchr world.dev.tmpBuf newline world.dev.tmpSize world.heap = .ok true := by
      simp [memchr, hBytes, hNewline, bind, Except.bind, pure, Except.pure]
    have hComplete : Complete call log world := ⟨hRing, hTmp, hNewline, hFunded⟩
    simp only [writeStep, hFound]
    split
    · next hFull => exact .went _ _ (.freeing hComplete hFull) (by simp) rfl
    · next hFull =>
      have hRoom : freeOldest world = .ok world := by simp only [freeOldest, hFull, Bool.false_eq_true, ↓reduceIte]
      exact .went _ _ (.addingEntry world world ⟨hComplete, hRoom, .refl world⟩) (by simp) rfl
  · have hFound : memchr world.dev.tmpBuf newline world.dev.tmpSize world.heap = .ok false := by
      simp [memchr, hBytes, hNewline, bind, Except.bind, pure, Except.pure]
    obtain ⟨hCommands, hPending⟩ := Log.accept_of_not_mem hNewline
    simp only [writeStep, hFound]
    exact .went _ _ (.unlocking ⟨hCommands ▸ hRing, hPending ▸ hTmp⟩ hFunded) (by simp) rfl

theorem Complete.freeing (h : Complete call log world) (hFull : world.dev.aesdCb.full = true) :
    Held call log world (writeStep call (.freeing call.accepted.length) world) := by
  obtain ⟨heap, aesdCb, hFree, _⟩ := freeOldest_spec h.ring
  rw [freeOldest_of_full hFull] at hFree
  obtain ⟨heap, hHeap, _⟩ := bind_ok_iff.mp hFree
  simp only [writeStep, hHeap]
  exact .went _ _ (.emptying world h hFull hHeap (.refl _)) (by simp) rfl

/-- Every statement under the lock succeeds, and leads to the next one. -/
theorem InWrite.step (h : InWrite call log world point) : Held call log world (writeStep call point world) := by
  cases h with
  | filling h => exact h.filling
  | searching hRing hTmp hFunded => exact held_searching hRing hTmp hFunded
  | freeing h hFull => exact h.freeing hFull
  | emptying base h hFull hHeap hSame =>
      have hRoom := freeOldest_of_full hFull
      rw [hHeap] at hRoom
      refine .went _ _ (.addingEntry base _ ⟨h, hRoom, rfl, ?_, hSame.tmpBuf, hSame.tmpSize⟩) (by simp) rfl
      rw [hSame.aesdCb]
      rfl
  | addingEntry base freed h =>
      simp only [writeStep]
      split
      · next hFull =>
        refine .went _ _ (.wrappingOut base freed (h.withCb ?_) (h.aesdCb ▸ hFull)) (by simp) rfl
        rw [h.aesdCb]
        rfl
      · next hFull =>
        refine .went _ _ (.storing base freed ⟨h.complete, h.room, h.same.trans ?_⟩) (by simp) rfl
        rw [h.aesdCb] at hFull
        refine ⟨rfl, ?_, rfl, rfl⟩
        simp only [World.withCb, AesdCircularBuffer.outMoved, if_neg hFull]
  | wrappingOut base freed h hFull =>
      refine .went _ _ (.storing base freed (h.withCb ?_)) (by simp) rfl
      rw [h.aesdCb]
      simp only [AesdCircularBuffer.outStepped, AesdCircularBuffer.outMoved, hFull, ↓reduceIte, nextOffs]
  | storing base freed h =>
      refine .went _ _ (.advancingIn base freed (h.withCb ?_)) (by simp) rfl
      rw [h.aesdCb, h.same.tmpBuf, h.same.tmpSize]
      rfl
  | advancingIn base freed h =>
      refine .went _ _ (.wrappingIn base freed (h.withCb ?_)) (by simp) rfl
      rw [h.aesdCb]
      rfl
  | wrappingIn base freed h =>
      refine .went _ _ (.flagging base freed (h.withCb ?_)) (by simp) rfl
      rw [h.aesdCb]
      rfl
  | flagging base freed h =>
      refine .went _ _ (.clearing base freed (h.withCb ?_)) (by simp) rfl
      rw [h.aesdCb]
      rfl
  | clearing base freed h => exact .went _ _ (.unlocking h.cleared h.complete.funded) (by simp) rfl
  | unlocking h hFunded => exact .unlocked _ (h.of_same ⟨rfl, rfl, rfl, rfl⟩) hFunded rfl

end Aesd
