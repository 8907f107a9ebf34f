import Aesd.Driver.Representation

/-! Runs of whole operations on the device. Whatever each of them returns,
the device represents the log of the bytes that the writes accepted. -/
namespace Aesd
open Kernel Word Memory Execution CommandLog

/-- The bytes that a write has taken over, by its return value. -/
def acceptedBytes (event : Op × Reply) : List Byte :=
  match event with
  | (.write _ call, reply) => (call.buf.getD []).take reply.retval.toNat
  | _ => []

def logOf (trace : List (Op × Reply)) : WriteLog := Log.empty.acceptAll (trace.map acceptedBytes)

/-- A state that some run of whole operations leads to. -/
def Reachable (system : System) : Prop :=
  ∃ ops trace, run System.exec ops System.initial = .ok (trace, system)

variable {system next : System} {world : World} {log : WriteLog} {filp file : File} {fd : Nat}
  {readCall : ReadCall} {writeCall : WriteCall} {call : IoctlCall} {retval : Int} {reply : Reply}
  {op : Op} {trace : List (Op × Reply)} {ops : List Op}

@[simp] theorem setFile_world : (system.setFile fd filp).world = system.world := rfl

@[simp] theorem setFile_file_self : (system.setFile fd filp).file fd = filp := by
  simp [System.setFile]

theorem ringHolds_initial : RingHolds World.initial [] where
  counted := counted_init
  held := Ring.holds_nil
  nonempty := by simp
  separate := by
    intro index other id hIndex
    have hZero : World.initial.dev.aesdCb.slot index = .zero := slot_init index
    rw [hZero] at hIndex
    cases hIndex

theorem represents_initial : Represents World.initial Log.empty where
  ring := ringHolds_initial
  tmpSize := rfl
  tmp := fun _ => tmpHolds_nil rfl
  bufferSize := rfl

/-- Everything the seek call can do to the device: nothing at all, or wait
for a lock that is never given back. -/
inductive IoctlOutcome (call : IoctlCall) (world : World) (filp : File) :
    Except Stop (Int × World × File) → Prop where
  | rejected (retval : Int) (hRetval : retval < 0) : IoctlOutcome call world filp (.ok (retval, world, filp))
  | blocked (hLock : world.dev.mxLock = true) : IoctlOutcome call world filp (.error .blocked)
  | sought (seekCmd : AesdSeekto) (hCmd : call.cmd = AESDCHAR_IOCSEEKTO) (hArg : call.arg = some seekCmd)
      (hBound : seekCmd.writeCmd.toNat ≤ aesdcharMaxWriteOperationsSupported)
      (hInterrupted : call.interrupted = false) (hLock : world.dev.mxLock = false) :
      IoctlOutcome call world filp
        (.ok ((seekTo (call.entryAt world.dev.aesdCb) seekCmd filp).1, world,
          (seekTo (call.entryAt world.dev.aesdCb) seekCmd filp).2))

/-- Taking the lock and giving it back leaves the device as it was. -/
theorem unlock_lock (hLock : world.dev.mxLock = false) :
    (⟨world.heap, mutexUnlock { world.dev with mxLock := true }⟩ : World) = world := by
  obtain ⟨heap, dev⟩ := world
  obtain ⟨aesdCb, mxLock, tmpBuf, tmpSize, bufferSize⟩ := dev
  cases hLock
  rfl

/-- The check of the number that a seek names. -/
theorem writeCmd_checked {seekCmd : AesdSeekto}
    (hBound : seekCmd.writeCmd.toNat ≤ aesdcharMaxWriteOperationsSupported) :
    ¬ (seekCmd.writeCmd < 0 ∨ seekCmd.writeCmd.toNat > aesdcharMaxWriteOperationsSupported) :=
  not_or.mpr ⟨UInt32.not_lt_zero, Nat.not_lt_of_le hBound⟩

/-- A call that passes the checks and gets the lock is the seek itself. -/
theorem aesdIoctl_sought {seekCmd : AesdSeekto} (hCmd : call.cmd = AESDCHAR_IOCSEEKTO)
    (hArg : call.arg = some seekCmd)
    (hBound : seekCmd.writeCmd.toNat ≤ aesdcharMaxWriteOperationsSupported)
    (hInterrupted : call.interrupted = false) (hLock : world.dev.mxLock = false) :
    aesdIoctl call world filp = .ok ((seekTo (call.entryAt world.dev.aesdCb) seekCmd filp).1, world,
      (seekTo (call.entryAt world.dev.aesdCb) seekCmd filp).2) := by
  rw [aesdIoctl, if_neg (not_not.mpr hCmd)]
  simp only [hArg, if_neg (writeCmd_checked hBound), mutexLockInterruptible, hInterrupted, hLock, bind, Except.bind,
    Bool.false_eq_true, ↓reduceIte, pure, Except.pure]
  rw [unlock_lock hLock]

theorem aesdIoctl_outcome (call : IoctlCall) (world : World) (filp : File) :
    IoctlOutcome call world filp (aesdIoctl call world filp) := by
  by_cases hSought : ∃ seekCmd, call.cmd = AESDCHAR_IOCSEEKTO ∧ call.arg = some seekCmd ∧
      seekCmd.writeCmd.toNat ≤ aesdcharMaxWriteOperationsSupported ∧ call.interrupted = false ∧
      world.dev.mxLock = false
  · obtain ⟨seekCmd, hCmd, hArg, hBound, hInterrupted, hLock⟩ := hSought
    rw [aesdIoctl_sought hCmd hArg hBound hInterrupted hLock]
    exact .sought seekCmd hCmd hArg hBound hInterrupted hLock
  · unfold aesdIoctl
    split
    · exact .rejected _ (by decide)
    · next hCmd =>
      split
      · exact .rejected _ (by decide)
      · next seekCmd hArg =>
        split
        · exact .rejected _ (by decide)
        · next hBound =>
          cases hInterrupted : call.interrupted with
          | true => exact .rejected (-ERESTARTSYS) (by decide)
          | false =>
              have hLock : world.dev.mxLock = true := by
                rw [← Bool.not_eq_false]
                intro hFree
                exact hSought ⟨seekCmd, not_ne_iff.mp hCmd, hArg, Nat.le_of_not_lt (not_or.mp hBound).2,
                  hInterrupted, hFree⟩
              simp only [mutexLockInterruptible, hLock, bind, Except.bind, Bool.false_eq_true, ↓reduceIte]
              exact .blocked hLock

theorem aesdIoctl_world {world next : World} (h : aesdIoctl call world filp = .ok (retval, next, file)) :
    next = world := by
  have hOutcome := aesdIoctl_outcome call world filp
  rw [h] at hOutcome
  cases hOutcome <;> rfl

theorem exec_read (h : System.exec (.read fd readCall) system = .ok (reply, next)) :
    ∃ filp, aesdRead readCall system.world (system.file fd) = .ok (reply.retval, reply.data, filp) ∧
      next = system.setFile fd filp := by
  obtain ⟨⟨retval, data, filp⟩, hRead, hReply⟩ := bind_ok_iff.mp h
  cases hReply
  exact ⟨filp, hRead, rfl⟩

theorem exec_write (h : System.exec (.write fd writeCall) system = .ok (reply, next)) :
    ∃ world, aesdWrite writeCall system.world = .ok (reply.retval, world) ∧
      next = { system with world } := by
  obtain ⟨⟨retval, world⟩, hWrite, hReply⟩ := bind_ok_iff.mp h
  cases hReply
  exact ⟨world, hWrite, rfl⟩

/-- A write answers with a number only. -/
theorem exec_write_data (h : System.exec (.write fd writeCall) system = .ok (reply, next)) :
    reply.data = [] := by
  obtain ⟨_, _, hReply⟩ := bind_ok_iff.mp h
  cases hReply
  rfl

theorem exec_ioctl (h : System.exec (.ioctl fd call) system = .ok (reply, next)) :
    ∃ filp, aesdIoctl call system.world (system.file fd) = .ok (reply.retval, system.world, filp) ∧
      next = system.setFile fd filp := by
  obtain ⟨⟨retval, world, filp⟩, hIoctl, hReply⟩ := bind_ok_iff.mp h
  obtain rfl := aesdIoctl_world hIoctl
  cases hReply
  exact ⟨filp, hIoctl, rfl⟩

/-- With the lock free, every seek call returns. -/
theorem exec_ioctl_ok (hLock : system.world.dev.mxLock = false) (fd : Nat) (call : IoctlCall) :
    ∃ reply next, System.exec (.ioctl fd call) system = .ok (reply, next) := by
  have hOutcome := aesdIoctl_outcome call system.world (system.file fd)
  simp only [System.exec]
  generalize aesdIoctl call system.world (system.file fd) = outcome at hOutcome
  cases hOutcome with
  | rejected retval => exact ⟨_, _, rfl⟩
  | blocked hTaken =>
      rw [hLock] at hTaken
      cases hTaken
  | sought seekCmd => exact ⟨_, _, rfl⟩

theorem exec_llseek (fd : Nat) (off whence : Int) : System.exec (.llseek fd off whence) system =
    .ok (⟨(aesdLlseek off whence system.world (system.file fd)).1, []⟩,
      system.setFile fd (aesdLlseek off whence system.world (system.file fd)).2) := rfl

/-- Only a write changes the device. -/
theorem exec_world (h : System.exec op system = .ok (reply, next))
    (hOp : ∀ fd writeCall, op ≠ .write fd writeCall) : next.world = system.world := by
  cases op with
  | openFile fd =>
      cases h
      rfl
  | release fd =>
      cases h
      rfl
  | read fd readCall =>
      obtain ⟨_, _, rfl⟩ := exec_read h
      rfl
  | write fd writeCall => exact absurd rfl (hOp fd writeCall)
  | llseek fd off whence =>
      cases h
      rfl
  | ioctl fd call =>
      obtain ⟨_, _, rfl⟩ := exec_ioctl h
      rfl

/-- Without writes the device stays as it is. -/
theorem run_world (hQuiet : ∀ op ∈ ops, ∀ fd writeCall, op ≠ .write fd writeCall)
    (hRun : run System.exec ops system = .ok (trace, next)) : next.world = system.world := by
  refine run_induct (fun _ state => state.world = system.world) ?_ [] rfl
    (along_and_mem along_true hQuiet) hRun
  intro history state op reply next hState hExec hOp
  exact (exec_world hExec hOp.2).trans hState

theorem acceptedBytes_of_not_write (hOp : ∀ fd writeCall, op ≠ .write fd writeCall) :
    acceptedBytes (op, reply) = [] := by
  cases op with
  | write fd writeCall => exact absurd rfl (hOp fd writeCall)
  | openFile fd => rfl
  | release fd => rfl
  | read fd readCall => rfl
  | llseek fd off whence => rfl
  | ioctl fd call => rfl

/-- A write that fails has accepted nothing, and the device represents the
log it represented before, whether or not the lock came back. -/
theorem write_represents {next : World} (h : Represents world log)
    (hWrite : aesdWrite writeCall world = .ok (reply.retval, next)) :
    Represents next (log.accept (acceptedBytes (.write fd writeCall, reply))) := by
  obtain ⟨retval, data⟩ := reply
  have hOutcome := aesdWrite_outcome h writeCall
  rw [hWrite] at hOutcome
  cases hOutcome with
  | noBuffer hBuf => simpa [acceptedBytes, hBuf] using h
  | interrupted buf hBuf hInterrupted =>
      have hNone : (-ERESTARTSYS).toNat = 0 := rfl
      simpa [acceptedBytes, hNone] using h
  | refused buf hBuf hInterrupted hLock hMemory =>
      have hNothing : acceptedBytes (.write fd writeCall, ⟨-ENOMEM, data⟩) = [] := rfl
      change Represents _ (log.accept (acceptedBytes (.write fd writeCall, ⟨-ENOMEM, data⟩)))
      rw [hNothing, Log.accept_nil]
      exact ⟨h.ring.congr rfl fun _ _ _ => rfl, h.tmpSize, fun hFree => (by cases hFree), h.bufferSize⟩
  | served buf hBuf hInterrupted hLock hMemory next hNext hUnlocked =>
      have hTake : acceptedBytes (.write fd writeCall, ⟨(buf.take writeCall.copied).length, data⟩) =
          buf.take writeCall.copied := by
        simp only [acceptedBytes, hBuf, Option.getD_some, Int.toNat_natCast, List.length_take]
        rw [List.take_eq_take_iff]
        omega
      change Represents next (log.accept (acceptedBytes
        (.write fd writeCall, ⟨((buf.take writeCall.copied).length : Int), data⟩)))
      rw [hTake]
      exact hNext

theorem exec_represents (h : Represents system.world log)
    (hExec : System.exec op system = .ok (reply, next)) :
    Represents next.world (log.accept (acceptedBytes (op, reply))) := by
  by_cases hOp : ∀ fd writeCall, op ≠ .write fd writeCall
  · rw [acceptedBytes_of_not_write hOp, Log.accept_nil, exec_world hExec hOp]
    exact h
  · simp only [not_forall, not_not] at hOp
    obtain ⟨fd, writeCall, rfl⟩ := hOp
    obtain ⟨world, hWrite, rfl⟩ := exec_write hExec
    exact write_represents h hWrite

theorem logOf_concat (event : Op × Reply) :
    logOf (trace ++ [event]) = (logOf trace).accept (acceptedBytes event) := by
  simp [logOf, Log.acceptAll]

/-- After any run the device represents the log of its writes. -/
theorem run_represents (hRun : run System.exec ops System.initial = .ok (trace, system)) :
    Represents system.world (logOf trace) :=
  run_induct (fun history system => Represents system.world (logOf history))
    (fun history state op reply next hState hExec _ => by
      rw [logOf_concat]
      exact exec_represents hState hExec)
    [] represents_initial along_true hRun

theorem Reachable.represents (h : Reachable system) : ∃ log, Represents system.world log := by
  obtain ⟨ops, trace, hRun⟩ := h
  exact ⟨logOf trace, run_represents hRun⟩

end Aesd
