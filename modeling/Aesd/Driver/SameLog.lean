import Aesd.Driver.Refinement
import Aesd.Driver.SeekBounds

/-! Two devices that represent one log. No operation tells them apart, in
whatever blocks the commands are, and whatever was in these before. -/
namespace Aesd
open Kernel Word Memory Execution CommandLog

/-- One request to the device, whatever the memory contains that it is served
from: a write differs in what fresh blocks contain, a seek in what lies
behind the array, unless it asks for that. -/
inductive Op.SameRequest : Op → Op → Prop where
  | same (op : Op) : SameRequest op op
  | write (fd : Nat) (call : WriteCall) (junk : Nat → Byte) :
      SameRequest (.write fd call) (.write fd { call with junk })
  | ioctl (fd : Nat) (call : IoctlCall) (stray : AesdBufferEntry) (hInside : ∀ dev, ¬ call.NamesEnd dev) :
      SameRequest (.ioctl fd call) (.ioctl fd { call with stray })

/-- The devices may differ in their heaps and in the pointers into these. -/
structure SameLog (left right : System) : Prop where
  log : ∃ log, Represents left.world log ∧ Represents right.world log
  lock : right.world.dev.mxLock = left.world.dev.mxLock
  file : right.file = left.file

variable {left right : System} {world copy : World} {commands : List (List Byte)} {call : ReadCall}
  {request : IoctlCall} {seekCmd : AesdSeekto} {filp : File} {fd index : Nat} {op other : Op}
  {entryAt entries : Nat → AesdBufferEntry}

theorem RingHolds.slot_size_eq (h : RingHolds world commands) (hCopy : RingHolds copy commands) :
    (copy.dev.aesdCb.slot index).size = (world.dev.aesdCb.slot index).size := by
  by_cases hIndex : index < (Ring.bySlot aesdcharMaxWriteOperationsSupported commands).length
  · rw [h.slot_size hIndex, hCopy.slot_size hIndex]
  · rw [Ring.bySlot_length] at hIndex
    rw [h.vacant (by omega), hCopy.vacant (by omega)]

theorem RingHolds.find_eq_find (h : RingHolds world commands) (hCopy : RingHolds copy commands) (charOffset : Nat) :
    aesdCircularBufferFindEntryOffsetForFpos copy.dev.aesdCb charOffset =
      aesdCircularBufferFindEntryOffsetForFpos world.dev.aesdCb charOffset := by
  have hIn : copy.dev.aesdCb.inOffs = world.dev.aesdCb.inOffs :=
    hCopy.counted.inOffs.trans h.counted.inOffs.symm
  have hOut : copy.dev.aesdCb.outOffs = world.dev.aesdCb.outOffs :=
    hCopy.counted.outOffs.trans h.counted.outOffs.symm
  rw [aesdCircularBufferFindEntryOffsetForFpos, aesdCircularBufferFindEntryOffsetForFpos, hOut]
  exact findLoop_congr hIn fun index => h.slot_size_eq hCopy

/-- A read finds the same entry, and there the same bytes. -/
theorem aesdRead_ringHolds (h : RingHolds world commands) (hCopy : RingHolds copy commands) :
    aesdRead call copy filp = aesdRead call world filp := by
  rw [aesdRead, aesdRead, h.find_eq_find hCopy]
  split
  · rfl
  · cases hFind : aesdCircularBufferFindEntryOffsetForFpos world.dev.aesdCb (unsigned64 filp.fPos) with
    | error stop => rfl
    | ok found =>
        rcases found with _ | ⟨slot, offset⟩
        · rfl
        · have hInside := findLoop_inside (unsigned64_lt filp.fPos) (Nat.zero_le _) hFind
          have hSize : (copy.dev.aesdCb.slot slot).size = (world.dev.aesdCb.slot slot).size := h.slot_size_eq hCopy
          obtain ⟨bytes, hBytes⟩ := h.bytes_of_size (Nat.zero_lt_of_lt hInside)
          have hCopyBytes := (hCopy.slot_bytes_eq h slot).trans hBytes
          simp only [bind, Except.bind]
          rw [AesdBufferEntry.copy_part hBytes (Nat.le_of_lt hInside),
            AesdBufferEntry.copy_part hCopyBytes (hSize ▸ Nat.le_of_lt hInside), hSize]

theorem sumLoop_alike {left index : Nat} {locOff : Int} (hSize : ∀ index, (entries index).size = (entryAt index).size)
    (hPopulated : ∀ index, (entries index).populated = (entryAt index).populated) :
    sumLoop entries left index locOff = sumLoop entryAt left index locOff := by
  induction left generalizing index locOff with
  | zero => rfl
  | succ left ih => rw [sumLoop, sumLoop, hPopulated, hSize, ih]

/-- A seek only asks which commands are in which slots. -/
theorem seekTo_ringHolds (h : RingHolds world commands) (hCopy : RingHolds copy commands) :
    seekTo (request.entryAt copy.dev.aesdCb) seekCmd filp = seekTo (request.entryAt world.dev.aesdCb) seekCmd filp := by
  have hPopulated : ∀ index, (request.entryAt copy.dev.aesdCb index).populated =
      (request.entryAt world.dev.aesdCb index).populated := by
    intro index
    rw [IoctlCall.entryAt, IoctlCall.entryAt]
    split
    · exact Bool.eq_iff_iff.mpr (hCopy.populated_iff.trans h.populated_iff.symm)
    · rfl
  have hSize : ∀ index, (request.entryAt copy.dev.aesdCb index).size =
      (request.entryAt world.dev.aesdCb index).size := by
    intro index
    rw [IoctlCall.entryAt, IoctlCall.entryAt]
    split
    · exact h.slot_size_eq hCopy
    · rfl
  simp only [seekTo, sumLoop_alike hSize hPopulated, hPopulated, hSize]

/-- A seek call gives one answer on both, moves the file to one place, and
leaves both as they are. -/
theorem aesdIoctl_ringHolds (h : RingHolds world commands) (hCopy : RingHolds copy commands)
    (hLock : copy.dev.mxLock = world.dev.mxLock) :
    Agree (fun result result' => result.1 = world ∧ result' = (copy, result.2))
      (aesdIoctl request world filp) (aesdIoctl request copy filp) := by
  rw [aesdIoctl, aesdIoctl]
  by_cases hCmd : request.cmd ≠ AESDCHAR_IOCSEEKTO
  · rw [if_pos hCmd, if_pos hCmd]
    exact .answered ⟨rfl, rfl⟩
  · rw [if_neg hCmd, if_neg hCmd]
    cases hArg : request.arg with
    | none => exact .answered ⟨rfl, rfl⟩
    | some seekCmd =>
        dsimp only
        by_cases hBound : seekCmd.writeCmd < 0 ∨ seekCmd.writeCmd.toNat > aesdcharMaxWriteOperationsSupported
        · rw [if_pos hBound, if_pos hBound]
          exact .answered ⟨rfl, rfl⟩
        · rw [if_neg hBound, if_neg hBound]
          cases hInterrupted : request.interrupted with
          | true => exact .answered ⟨rfl, rfl⟩
          | false =>
              cases hHeld : world.dev.mxLock with
              | true =>
                  simp only [mutexLockInterruptible, hLock, hHeld, Bool.false_eq_true, ↓reduceIte]
                  exact .stopped Stop.blocked
              | false =>
                  simp only [mutexLockInterruptible, hLock, hHeld, Bool.false_eq_true, ↓reduceIte, bind,
                    Except.bind, pure, Except.pure]
                  rw [seekTo_ringHolds h hCopy, unlock_lock hHeld, unlock_lock (hLock.trans hHeld)]
                  exact .answered ⟨rfl, rfl⟩

namespace SameLog

theorem initial : SameLog System.initial System.initial where
  log := ⟨Log.empty, represents_initial, represents_initial⟩
  lock := rfl
  file := rfl

theorem setFile (h : SameLog left right) (fd : Nat) (filp : File) :
    SameLog (left.setFile fd filp) (right.setFile fd filp) where
  log := h.log
  lock := h.lock
  file := by simp only [System.setFile, h.file]

/-- The word that counts all bytes is the same for one log. -/
theorem bufferSize (h : SameLog left right) : right.world.dev.bufferSize = left.world.dev.bufferSize := by
  obtain ⟨log, hLeft, hRight⟩ := h.log
  exact hRight.bufferSize.trans hLeft.bufferSize.symm

theorem read (h : SameLog left right) :
    Agree SameLog (System.exec (.read fd call) left) (System.exec (.read fd call) right) := by
  obtain ⟨log, hLeft, hRight⟩ := h.log
  simp only [System.exec, h.file, aesdRead_ringHolds hLeft.ring hRight.ring]
  cases aesdRead call left.world (left.file fd) with
  | error stop => exact .stopped stop
  | ok result => exact .answered (h.setFile fd result.2.2)

/-- The log device knows nothing of what fresh memory contains. -/
theorem write (h : SameLog left right) (writeCall : WriteCall) (junk : Nat → Byte) :
    Agree SameLog (System.exec (.write fd writeCall) left)
      (System.exec (.write fd { writeCall with junk }) right) := by
  obtain ⟨log, hLeft, hRight⟩ := h.log
  obtain ⟨device, hDevice⟩ : ∃ device : LogDevice, device = ⟨log, left.world.dev.mxLock, fun _ => 0⟩ := ⟨_, rfl⟩
  have hJunk : device.write { writeCall with junk } = device.write writeCall := rfl
  have hFirst := @exec_write_log left device fd writeCall (hDevice ▸ hLeft) (hDevice ▸ rfl)
  have hSecond := @exec_write_log right device fd { writeCall with junk } (hDevice ▸ hRight) (hDevice ▸ h.lock)
  rw [hJunk] at hSecond
  refine (hFirst.join hSecond).imp ?_
  rintro next next' ⟨after, ⟨hNext, hLock, hFile, _⟩, ⟨hNext', hLock', hFile', _⟩⟩
  exact ⟨⟨after.log, hNext, hNext'⟩, hLock'.trans hLock.symm, by rw [hFile, hFile', h.file]⟩

theorem llseek (h : SameLog left right) (off whence : Int) :
    Agree SameLog (System.exec (.llseek fd off whence) left) (System.exec (.llseek fd off whence) right) := by
  have hSeek : aesdLlseek off whence right.world (right.file fd) =
      aesdLlseek off whence left.world (left.file fd) := by
    simp only [aesdLlseek, h.bufferSize, h.file]
  rw [exec_llseek, exec_llseek, hSeek]
  exact .answered (h.setFile fd _)

theorem ioctl (h : SameLog left right) :
    Agree SameLog (System.exec (.ioctl fd request) left) (System.exec (.ioctl fd request) right) := by
  obtain ⟨log, hLeft, hRight⟩ := h.log
  have hAgree := @aesdIoctl_ringHolds _ _ _ request (left.file fd) hLeft.ring hRight.ring h.lock
  have hFile : right.file fd = left.file fd := congrFun h.file fd
  simp only [System.exec, hFile]
  generalize aesdIoctl request left.world (left.file fd) = outcome at hAgree
  generalize aesdIoctl request right.world (left.file fd) = outcome' at hAgree
  cases hAgree with
  | stopped stop => exact .stopped stop
  | @answered retval result result' hResult =>
      obtain ⟨world, filp⟩ := result
      obtain ⟨rfl, rfl⟩ := hResult
      exact .answered (h.setFile fd filp)

/-- No operation tells two devices with one log apart. -/
theorem exec (h : SameLog left right) (hOp : op.SameRequest other) :
    Agree SameLog (System.exec op left) (System.exec other right) := by
  cases hOp with
  | same =>
      cases op with
      | openFile fd => exact .answered (h.setFile fd ⟨0⟩)
      | release fd => exact .answered h
      | read fd call => exact h.read
      | write fd call => exact h.write call call.junk
      | llseek fd off whence => exact h.llseek off whence
      | ioctl fd call => exact h.ioctl
  | write fd call junk => exact h.write call junk
  | ioctl fd call stray hInside =>
      have hStray : System.exec (.ioctl fd { call with stray }) right = System.exec (.ioctl fd call) right := by
        simp only [System.exec, aesdIoctl_stray (hInside right.world.dev)]
      rw [hStray]
      exact h.ioctl

end SameLog

/-- No answer depends on what memory contained before the driver wrote to it,
and only one to a seek that asks for the slot behind the last one can depend
on what is there. -/
theorem replies_of_sameRequests (ops others : List Op) (hSame : List.Forall₂ Op.SameRequest ops others) :
    replies (run System.exec ops System.initial) = replies (run System.exec others System.initial) :=
  replies_agree SameLog Op.SameRequest (fun _ _ _ _ hOp hStart => hStart.exec hOp) hSame SameLog.initial

/-- The same requests, with ones in every fresh block and an entry behind the
array, for which none of them asks. -/
def lineOpsDirty : List Op :=
  lineOps.map fun op => match op with
    | .write fd call => .write fd { call with junk := fun _ => 1 }
    | .ioctl fd call => .ioctl fd { call with stray := ⟨.zeroSize, 7⟩ }
    | other => other

/-- A seek that asks for the entry behind the array. -/
def strayOp : Op := .ioctl 0 (seekCall ⟨10, 5⟩ ⟨.zeroSize, 7⟩)

theorem replies_of_sameRequests_line :
    replies (run System.exec (strayOp :: lineOps) System.initial) =
      replies (run System.exec (strayOp :: lineOpsDirty) System.initial) := by
  refine replies_of_sameRequests _ _ ?_
  have hInside : ∀ dev, ¬ (seekCall ⟨0, 1⟩ .zero).NamesEnd dev := by
    rintro dev ⟨seekCmd, _, hArg, hEnd, _⟩
    cases hArg
    cases hEnd
  simp only [lineOps, lineOpsDirty, List.map_cons, List.map_nil]
  repeat' first | exact .ioctl _ _ _ hInside | constructor

end Aesd
