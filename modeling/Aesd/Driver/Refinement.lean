import Aesd.Driver.LogDevice
import Aesd.Driver.Positions

/-! The driver refines the log device: over any run of whole operations the
two give the same answers, failures and waits included. -/
namespace Aesd
open Kernel Word Memory Execution CommandLog

/-- The driver is in a state that stands for one of the log device. -/
structure Refines (system : System) (device : LogDevice) : Prop where
  represents : Represents system.world device.log
  held : system.world.dev.mxLock = device.held
  position : ∀ fd, (system.file fd).fPos = device.position fd
  inRange : ∀ fd, device.position fd < 2 ^ 63

variable {system next : System} {device : LogDevice} {world : World} {log : WriteLog} {filp : File}
  {fd position : Nat} {call : ReadCall} {writeCall : WriteCall} {ioctlCall : IoctlCall} {seekCmd : AesdSeekto}
  {off whence : Int} {op : Op} {ops : List Op} {commands : List (List Byte)}

theorem refines_initial : Refines System.initial LogDevice.initial where
  represents := represents_initial
  held := rfl
  position := fun _ => rfl
  inRange := fun _ => Nat.two_pow_pos 63

@[simp] theorem setFile_self : system.setFile fd (system.file fd) = system := by
  obtain ⟨world, file⟩ := system
  simp only [System.setFile, System.mk.injEq, true_and]
  funext other
  split
  · next hSame => rw [hSame]
  · rfl

/-- A write does to the device what it does to a log device, and nothing to
the positions of either. -/
theorem exec_write_log (h : Represents system.world device.log) (hHeld : system.world.dev.mxLock = device.held) :
    Agree (fun next after => Represents next.world after.log ∧ next.world.dev.mxLock = after.held ∧
        next.file = system.file ∧ after.position = device.position)
      (System.exec (.write fd writeCall) system) (device.write writeCall) := by
  have hOutcome := aesdWrite_outcome h writeCall
  simp only [System.exec]
  generalize aesdWrite writeCall system.world = outcome at hOutcome
  cases hOutcome with
  | noBuffer hBuf =>
      simp only [LogDevice.write, hBuf, bind, Except.bind]
      exact .answered ⟨h, hHeld, rfl, rfl⟩
  | interrupted buf hBuf hInterrupted =>
      simp only [LogDevice.write, hBuf, hInterrupted, ↓reduceIte, bind, Except.bind]
      exact .answered ⟨h, hHeld, rfl, rfl⟩
  | blocked buf hBuf hInterrupted hLock =>
      simp only [LogDevice.write, hBuf, hInterrupted, ← hHeld, hLock, ↓reduceIte, Bool.false_eq_true,
        bind, Except.bind]
      exact .stopped Stop.blocked
  | refused buf hBuf hInterrupted hFree hMemory =>
      obtain ⟨hGranted, hSome⟩ := not_or.mp hMemory
      rw [Bool.not_eq_true] at hGranted
      rw [h.tmpSize] at hSome
      simp only [LogDevice.write, hBuf, hInterrupted, ← hHeld, hFree, hGranted, Nat.pos_of_ne_zero hSome,
        and_self, ↓reduceIte, Bool.false_eq_true, bind, Except.bind]
      refine .answered ⟨⟨?_, h.tmpSize, fun hNever => ?_, h.bufferSize⟩, rfl, rfl, rfl⟩
      · exact h.ring.congr rfl fun _ _ _ => rfl
      · cases hNever
  | served buf hBuf hInterrupted hFree hMemory next hNext hUnlocked =>
      have hGranted : ¬ (writeCall.granted = false ∧ 0 < device.log.pending.length + buf.length) := by
        rintro ⟨hRefused, hSome⟩
        rcases hMemory with hGranted | hNothing
        · rw [hGranted] at hRefused
          cases hRefused
        · rw [h.tmpSize] at hNothing
          omega
      simp only [LogDevice.write, hBuf, hInterrupted, ← hHeld, hFree, if_neg hGranted, ↓reduceIte,
        Bool.false_eq_true, bind, Except.bind]
      exact .answered ⟨hNext, hUnlocked, rfl, rfl⟩

namespace Refines

/-- Moving one file to the same place keeps the two in step. -/
theorem move (h : Refines system device) (hPosition : filp.fPos = position) (hRange : position < 2 ^ 63) :
    Refines (system.setFile fd filp) (device.move fd position) where
  represents := h.represents
  held := h.held
  position := by
    intro file
    rw [LogDevice.move_position]
    by_cases hFile : file = fd
    · simp [System.setFile, hFile, hPosition]
    · simp [System.setFile, hFile, h.position file]
  inRange := by
    intro file
    rw [LogDevice.move_position]
    split
    · exact hRange
    · exact h.inRange file

/-- What is stored is a part of what was written. -/
theorem storedSize_le (h : Refines system device) :
    system.world.storedSize ≤ device.log.contents.length := by
  have hParts : device.log.commands = device.log.commands.take
      (device.log.commands.length - aesdcharMaxWriteOperationsSupported) ++
      device.log.commands.rtake aesdcharMaxWriteOperationsSupported := (List.take_append_drop _ _).symm
  rw [h.represents.ring.storedSize, Log.contents, hParts, List.flatten_append]
  simp only [List.length_append, ← hParts]
  omega

theorem unsigned_position (h : Refines system device) (fd : Nat) :
    unsigned64 (system.file fd).fPos = device.position fd := by
  have hRange := h.inRange fd
  rw [h.position]
  exact unsigned64_of_lt (by omega)

theorem read (h : Refines system device) (hSize : device.log.contents.length < 2 ^ 63) :
    Agree Refines (System.exec (.read fd call) system) (.ok (device.read fd call)) := by
  have hStored := h.storedSize_le
  have hTotal := h.represents.ring.storedSize
  have hPosition := h.unsigned_position fd
  have hOutcome := aesdRead_outcome h.represents.ring (by omega) call (system.file fd)
  rw [show device.log.commands.rtake aesdcharMaxWriteOperationsSupported = lastCommands device.log from rfl]
    at hOutcome hTotal
  simp only [System.exec]
  generalize aesdRead call system.world (system.file fd) = outcome at hOutcome
  cases hOutcome with
  | noBuffer hBuf =>
      rw [LogDevice.read_failed (Or.inl hBuf)]
      simp only [bind, Except.bind, setFile_self]
      exact .answered h
  | atEnd hBuf hEnd =>
      rw [hPosition] at hEnd
      rw [@LogDevice.read_served _ _ _ [] hBuf (by rw [Segments.rest_of_end hEnd, List.take_nil]) (Or.inr rfl)]
      exact .answered (h.move (h.position fd) (h.inRange fd))
  | failed hBuf hInside hFails hCount =>
      rw [hPosition] at hInside
      have hRest := List.length_pos_of_ne_nil (Segments.rest_ne_nil hInside)
      rw [LogDevice.read_failed (Or.inr ⟨hFails, List.ne_nil_of_length_pos (by rw [List.length_take]; omega)⟩)]
      simp only [bind, Except.bind, setFile_self]
      exact .answered h
  | copied index offset hBuf hIndex hLocate hServed =>
      rw [hPosition] at hLocate
      obtain ⟨_, hRest⟩ := Segments.rest_of_locate hLocate
      obtain ⟨_, hFits, _⟩ := @take_of_locate _ _ _ _ call.count hIndex hLocate
      rw [LogDevice.read_served hBuf (by rw [hRest]) (hServed.imp_right fun hZero => by rw [hZero, List.take_zero])]
      refine .answered (h.move ?_ (by omega))
      dsimp only
      rw [h.position, signed64_of_range (by omega) (by omega)]
      rfl

/-- A write is a write of the log device, whatever files there are. -/
theorem write (h : Refines system device) :
    Agree Refines (System.exec (.write fd writeCall) system) (device.write writeCall) := by
  refine (exec_write_log h.represents h.held).imp ?_
  rintro next after ⟨hNext, hHeld, hFile, hPosition⟩
  exact ⟨hNext, hHeld, by rw [hFile, hPosition]; exact h.position, by rw [hPosition]; exact h.inRange⟩

/-- In range, the word that counts all bytes is their number. -/
theorem bufferSize_eq (h : Refines system device) (hSize : device.log.contents.length < 2 ^ 63) :
    system.world.dev.bufferSize = device.log.contents.length := by
  rw [h.represents.bufferSize, Nat.mod_eq_of_lt (by omega)]

theorem llseek (h : Refines system device) (hSize : device.log.contents.length < 2 ^ 63)
    (hLow : -2 ^ 63 ≤ off) (hHigh : off < 2 ^ 63) :
    Agree Refines (System.exec (.llseek fd off whence) system) (.ok (device.llseek fd off whence)) := by
  have hBuffer := h.bufferSize_eq hSize
  have hTarget : seekSum off whence system.world (system.file fd) = device.seekTarget fd off whence := by
    rw [seekSum, LogDevice.seekTarget, h.position, hBuffer]
  have hRange : (system.file fd).InRange := by
    rw [File.InRange, h.position]
    have := h.inRange fd
    omega
  have hSeek := @aesdLlseek_eq system.world (system.file fd) off whence hLow hHigh
  rw [exec_llseek, LogDevice.llseek, hSeek, hTarget]
  cases hSum : device.seekTarget fd off whence with
  | none =>
      simp only [setFile_self]
      exact .answered h
  | some target =>
      obtain ⟨hTargetLow, hTargetHigh⟩ := seekSum_range hRange (hBuffer ▸ hSize) hLow hHigh (hTarget.trans hSum)
      have hSign := signed64_neg_iff hTargetLow hTargetHigh
      dsimp only
      by_cases hFits : 0 ≤ target ∧ target < 2 ^ 63
      · rw [if_pos hFits, signed64_of_range hTargetLow hFits.2, if_neg (by omega)]
        exact .answered (h.move (Int.toNat_of_nonneg hFits.1).symm (by omega))
      · rw [if_neg hFits, if_pos (hSign.mpr (by omega)), setFile_self]
        exact .answered h

end Refines

theorem RingHolds.slot_size {index : Nat} (h : RingHolds world commands)
    (hIndex : index < (Ring.bySlot aesdcharMaxWriteOperationsSupported commands).length) :
    (world.dev.aesdCb.slot index).size =
      (Ring.bySlot aesdcharMaxWriteOperationsSupported commands)[index].length := by
  have hBytes := @Ring.Holds.getElem_bySlot _ _ _ _ h.held index (by rwa [Ring.bySlot_map, List.length_map])
  simp only [Ring.bySlot_map, List.getElem_map] at hBytes
  exact (Kernel.length_of_load hBytes).symm

/-- The slots up to one of them have the sizes of the commands by slot. -/
theorem RingHolds.sizesByIndex_eq {count : Nat} (h : RingHolds world commands)
    (hCount : count ≤ (Ring.bySlot aesdcharMaxWriteOperationsSupported commands).length) :
    world.dev.aesdCb.sizesByIndex count =
      ((Ring.bySlot aesdcharMaxWriteOperationsSupported commands).take count).flatten.length := by
  induction count with
  | zero => rfl
  | succ count ih =>
      rw [sizesByIndex_succ, ih (by omega), h.slot_size hCount, List.take_succ_eq_append_getElem hCount,
        List.flatten_append, List.length_append, List.flatten_singleton]

namespace Refines

theorem seekCommand {stray : AesdBufferEntry} (h : Refines system device)
    (hSize : device.log.contents.length < 2 ^ 63) (hFree : device.held = false)
    (hSlot : seekCmd.writeCmd.toNat < aesdcharMaxWriteOperationsSupported) :
    Agree Refines (System.exec (.ioctl fd (seekCall seekCmd stray)) system)
      (.ok (device.seekCommand fd seekCmd)) := by
  have hRing := h.represents.ring
  have hLock : system.world.dev.mxLock = false := h.held.trans hFree
  have hStored := h.storedSize_le
  have hExec : ∀ {retval : Int} {filp : File},
      aesdIoctl (seekCall seekCmd stray) system.world (system.file fd) = .ok (retval, system.world, filp) →
      System.exec (.ioctl fd (seekCall seekCmd stray)) system = .ok (⟨retval, []⟩, system.setFile fd filp) := by
    intro retval filp hIoctl
    simp only [System.exec, hIoctl, bind, Except.bind, pure, Except.pure]
  have hLength : device.bySlot.length =
      (device.log.commands.rtake aesdcharMaxWriteOperationsSupported).length := by
    rw [LogDevice.bySlot, Ring.bySlot_length, Ring.rtake_length]
  rw [LogDevice.seekCommand]
  by_cases hCmd : seekCmd.writeCmd.toNat < device.bySlot.length
  · have hSize : (system.world.dev.aesdCb.slot seekCmd.writeCmd.toNat).size =
        device.bySlot[seekCmd.writeCmd.toNat].length := hRing.slot_size hCmd
    have hSum : system.world.dev.aesdCb.sizesByIndex seekCmd.writeCmd.toNat =
        (device.bySlot.take seekCmd.writeCmd.toNat).flatten.length :=
      hRing.sizesByIndex_eq (Nat.le_of_lt hCmd)
    have hIoctl := @aesdIoctl_stored _ _ seekCmd stray (system.file fd) hRing hLock (hLength ▸ hCmd)
    have hMono := @sizesByIndex_mono system.world.dev.aesdCb _ _ hCmd
    rw [hLength, sizesByIndex_stored hRing, ← hRing.storedSize, sizesByIndex_succ] at hMono
    rw [List.getElem?_eq_getElem hCmd]
    dsimp only
    rw [hSize] at hIoctl
    split
    · next hBehind =>
      rw [hExec (hIoctl.trans (if_pos hBehind)), setFile_self]
      exact .answered h
    · next hInside =>
      rw [hExec (hIoctl.trans (if_neg hInside))]
      refine .answered (h.move ?_ (by omega))
      dsimp only
      rw [hSum, signed64_of_range (by omega) (by omega), Int.natCast_add]
  · have hVacant : (system.world.dev.aesdCb.slot seekCmd.writeCmd.toNat).populated = false := by
      rw [LogDevice.bySlot, Ring.bySlot_length] at hCmd
      rw [hRing.vacant (by omega)]
      rfl
    rw [List.getElem?_eq_none (Nat.le_of_not_lt hCmd), hExec (aesdIoctl_vacant hLock hSlot hVacant), setFile_self]
    exact .answered h

theorem ioctl (h : Refines system device) (hSize : device.log.contents.length < 2 ^ 63)
    (hOp : (Op.ioctl fd ioctlCall).InDomain) :
    Agree Refines (System.exec (.ioctl fd ioctlCall) system) (device.ioctl fd ioctlCall) := by
  have hLock := h.held
  have hReject : ∀ retval : Int, Agree Refines
      (.ok (⟨retval, []⟩, { system with world := system.world }.setFile fd (system.file fd)))
      (.ok (⟨retval, []⟩, device) : Except Stop (Reply × LogDevice)) := by
    intro retval
    rw [setFile_self]
    exact .answered h
  rw [LogDevice.ioctl]
  by_cases hCmd : ioctlCall.cmd = AESDCHAR_IOCSEEKTO
  · rw [if_neg (not_not.mpr hCmd)]
    cases hArg : ioctlCall.arg with
    | none =>
        simp only [System.exec, aesdIoctl, hCmd, hArg, ne_eq, not_true_eq_false, ↓reduceIte, bind, Except.bind]
        exact hReject _
    | some seekCmd =>
        dsimp only
        by_cases hBound : aesdcharMaxWriteOperationsSupported < seekCmd.writeCmd.toNat
        · rw [if_pos hBound]
          simp only [System.exec, aesdIoctl, hCmd, hArg, ne_eq, not_true_eq_false, ↓reduceIte, gt_iff_lt,
            hBound, or_true, bind, Except.bind]
          exact hReject _
        · rw [if_neg hBound]
          have hChecked := writeCmd_checked (Nat.le_of_not_lt hBound)
          cases hInterrupted : ioctlCall.interrupted with
          | true =>
              simp only [System.exec, aesdIoctl, hCmd, hArg, ne_eq, not_true_eq_false, ↓reduceIte,
                if_neg hChecked, mutexLockInterruptible, hInterrupted, bind, Except.bind]
              exact hReject _
          | false =>
              cases hHeld : device.held with
              | true =>
                  simp only [System.exec, aesdIoctl, hCmd, hArg, ne_eq, not_true_eq_false, ↓reduceIte,
                    if_neg hChecked, mutexLockInterruptible, hInterrupted, hLock, hHeld, bind, Except.bind,
                    Bool.false_eq_true]
                  exact .stopped Stop.blocked
              | false =>
                  have hCall : ioctlCall = seekCall seekCmd ioctlCall.stray := by
                    obtain ⟨cmd, arg, interrupted, stray⟩ := ioctlCall
                    cases hCmd
                    cases hArg
                    cases hInterrupted
                    rfl
                  have hSlot := Nat.lt_of_le_of_ne (Nat.le_of_not_lt hBound) (hOp seekCmd hArg)
                  rw [hCall]
                  exact h.seekCommand hSize hHeld hSlot
  · rw [if_pos hCmd]
    simp only [System.exec, aesdIoctl, hCmd, ne_eq, not_false_eq_true, ↓reduceIte, bind, Except.bind]
    exact hReject _

/-- One operation of the driver is one of the log device. -/
theorem exec (h : Refines system device) (hOp : op.InDomain)
    (hSize : device.log.contents.length < 2 ^ 63) :
    Agree Refines (System.exec op system) (LogDevice.exec op device) := by
  cases op with
  | openFile fd => exact .answered (h.move rfl (Nat.two_pow_pos 63))
  | release fd => exact .answered h
  | read fd call => exact h.read hSize
  | write fd call => exact h.write
  | llseek fd off whence => exact h.llseek hSize hOp.1 hOp.2
  | ioctl fd call => exact h.ioctl hSize hOp

end Refines

/-- Only writes change the log, and their answers say what it accepted. -/
theorem LogDevice.exec_log {next : LogDevice} {reply : Reply}
    (hExec : LogDevice.exec op device = .ok (reply, next)) :
    next.log = device.log.accept (acceptedBytes (op, reply)) := by
  cases op with
  | openFile fd =>
      cases hExec
      exact Log.accept_nil.symm
  | release fd =>
      cases hExec
      exact Log.accept_nil.symm
  | read fd call =>
      rw [acceptedBytes_of_not_write (by simp), Log.accept_nil]
      simp only [LogDevice.exec, LogDevice.read] at hExec
      split at hExec
      all_goals
        cases hExec
        rfl
  | llseek fd off whence =>
      rw [acceptedBytes_of_not_write (by simp), Log.accept_nil]
      simp only [LogDevice.exec, LogDevice.llseek] at hExec
      repeat' split at hExec
      all_goals
        cases hExec
        rfl
  | ioctl fd call =>
      rw [acceptedBytes_of_not_write (by simp), Log.accept_nil]
      simp only [LogDevice.exec, LogDevice.ioctl, LogDevice.seekCommand] at hExec
      repeat' split at hExec
      all_goals
        cases hExec
        try rfl
  | write fd call =>
      simp only [LogDevice.exec, LogDevice.write] at hExec
      split at hExec
      · cases hExec
        exact Log.accept_nil.symm
      · next buf hBuf =>
        repeat' split at hExec
        all_goals cases hExec
        · exact Log.accept_nil.symm
        · exact Log.accept_nil.symm
        · have hTake : buf.take (buf.take call.copied).length = buf.take call.copied := by
            rw [List.take_eq_take_iff, List.length_take]
            omega
          simp only [acceptedBytes, hBuf, Option.getD_some, Int.toNat_natCast, hTake]

theorem LogDevice.run_log {next : LogDevice} {trace : List (Op × Reply)}
    (hRun : run LogDevice.exec ops device = .ok (trace, next)) :
    next.log = device.log.acceptAll (trace.map acceptedBytes) := by
  refine run_induct (fun history state => state.log = device.log.acceptAll (history.map acceptedBytes))
    ?_ [] rfl along_true hRun
  intro history state op reply next hState hExec _
  rw [exec_log hExec, hState]
  simp [Log.acceptAll]

/-- Each write makes the log grow by what it offers at most. -/
theorem LogDevice.exec_contents {next : LogDevice} {reply : Reply}
    (hExec : LogDevice.exec op device = .ok (reply, next)) :
    next.log.contents.length ≤ device.log.contents.length + op.offered := by
  rw [exec_log hExec, Log.contents_accept, List.length_append]
  refine Nat.add_le_add_left ?_ _
  cases op with
  | write fd call => exact List.length_take_le' _ _
  | _ => exact Nat.zero_le _

theorem run_refines (h : Refines system device) (hOps : ∀ op ∈ ops, op.InDomain)
    (hSize : device.log.contents.length + (ops.map Op.offered).sum < 2 ^ 63) :
    Agree Refines (run System.exec ops system) (run LogDevice.exec ops device) := by
  have hRun := @run_agree _ _ _ _ System.exec ops system _ LogDevice.exec device
    (fun rest system device => Refines system device ∧ (∀ op ∈ rest, op.InDomain) ∧
      device.log.contents.length + (rest.map Op.offered).sum < 2 ^ 63) ?_ ⟨h, hOps, hSize⟩
  · exact hRun.imp fun _ _ hRelated => hRelated.1
  rintro op rest system device ⟨hRelated, hRest, hBudget⟩
  rw [List.map_cons, List.sum_cons] at hBudget
  have hExec := hRelated.exec (hRest op List.mem_cons_self) (by omega)
  generalize hSystem : System.exec op system = outcome at hExec
  generalize hDevice : LogDevice.exec op device = outcome' at hExec
  cases hExec with
  | stopped stop => exact .stopped stop
  | answered hNext =>
      have hGrown := LogDevice.exec_contents hDevice
      exact .answered ⟨hNext, fun later hLater => hRest later (List.mem_cons_of_mem _ hLater), by omega⟩

/-- For any operations the driver and the log device stop together or give the
same answers, as long as no seek names the slot behind the array and not more
is offered than a position can count. -/
theorem driver_refines_log (ops : List Op) (hOps : ∀ op ∈ ops, op.InDomain)
    (hOffered : (ops.map Op.offered).sum < 2 ^ 63) :
    Agree Refines (run System.exec ops System.initial) (run LogDevice.exec ops LogDevice.initial) :=
  run_refines refines_initial hOps (by simpa [LogDevice.initial, Log.contents, Log.empty] using hOffered)

/-- A line, a read of it in parts, seeks, and a write that is refused its
memory and holds up the next one. -/
def lineOps : List Op :=
  [.openFile 0, .write 0 (wholeWrite [97, 98]), .write 0 (wholeWrite [99, newline]), .read 0 ⟨true, 3, false⟩,
    .read 0 ⟨true, 3, false⟩, .ioctl 0 (seekCall ⟨0, 1⟩ .zero), .llseek 0 (-2) SEEK_END,
    .write 0 refusedWrite, .read 0 ⟨true, 3, false⟩, .write 0 (wholeWrite [97])]

theorem driver_refines_log_line :
    Agree Refines (run System.exec lineOps System.initial) (run LogDevice.exec lineOps LogDevice.initial) :=
  driver_refines_log lineOps (by simp [lineOps, Op.InDomain, seekCall]) (by decide)

end Aesd
