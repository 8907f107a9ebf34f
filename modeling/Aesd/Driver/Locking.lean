import Aesd.Driver.WriteLog

/-! What a write does that fails. The way back taken without memory does
not give the lock back, and it drops the pointer to the pending bytes. -/
namespace Aesd
open Kernel Word Memory Execution CommandLog

/-- The call gets the lock, needs memory, and gets none. -/
def WriteCall.Refused (call : WriteCall) (dev : AesdDev) : Prop :=
  ∃ buf, call.buf = some buf ∧ call.interrupted = false ∧ ¬ call.HasMemory buf dev

def Op.Refused (op : Op) (system : System) : Prop :=
  ∃ fd call, op = .write fd call ∧ call.Refused system.world.dev

/-- Between the operations of a run nobody holds the lock, and no operation
waits for it. -/
structure LockDiscipline (ops : List Op) : Prop where
  free : ∀ before after trace system, ops = before ++ after →
    run System.exec before System.initial = .ok (trace, system) → system.world.dev.mxLock = false
  acquired : run System.exec ops System.initial ≠ .error .blocked

variable {system next : System} {world result : World} {log : WriteLog} {call : WriteCall} {op : Op}
  {ops : List Op} {retval : Int} {reply : Reply} {filp : File}

theorem aesdRead_ne_blocked {call : ReadCall} : aesdRead call world filp ≠ .error .blocked := by
  unfold aesdRead
  split
  · simp
  · intro hBlocked
    rcases bind_error_iff.mp hBlocked with hFind | ⟨found, _, hRest⟩
    · cases findLoop_error hFind
    · cases found with
      | none => cases hRest
      | some found =>
          rcases bind_error_iff.mp hRest with hCopy | ⟨bytes, _, hReply⟩
          · exact copyToUser_ne_blocked hCopy
          · cases bytes <;> cases hReply

/-- With the lock free, nothing waits. -/
theorem exec_ne_blocked (h : Represents system.world log) (hLock : system.world.dev.mxLock = false) :
    System.exec op system ≠ .error .blocked := by
  cases op with
  | openFile fd => simp [System.exec]
  | release fd => simp [System.exec]
  | llseek fd off whence => simp [System.exec]
  | read fd call =>
      intro hBlocked
      rcases bind_error_iff.mp hBlocked with hRead | ⟨_, _, hReply⟩
      · exact aesdRead_ne_blocked hRead
      · cases hReply
  | write fd call =>
      intro hBlocked
      rcases bind_error_iff.mp hBlocked with hWrite | ⟨_, _, hReply⟩
      · have hOutcome := aesdWrite_outcome h call
        rw [hWrite] at hOutcome
        cases hOutcome with
        | blocked buf _ _ hHeld => simp [hLock] at hHeld
      · cases hReply
  | ioctl fd call =>
      intro hBlocked
      rcases bind_error_iff.mp hBlocked with hIoctl | ⟨_, _, hReply⟩
      · have hOutcome := aesdIoctl_outcome call system.world (system.file fd)
        rw [hIoctl] at hOutcome
        cases hOutcome with
        | blocked hHeld => simp [hLock] at hHeld
      · cases hReply

/-- A write gives the lock back unless it was refused its memory. -/
theorem aesdWrite_mxLock (h : Represents world log) (hLock : world.dev.mxLock = false)
    (hWrite : aesdWrite call world = .ok (retval, result)) :
    result.dev.mxLock = false ↔ ¬ call.Refused world.dev := by
  have hOutcome := aesdWrite_outcome h call
  rw [hWrite] at hOutcome
  cases hOutcome with
  | noBuffer hBuf => simp [hLock, WriteCall.Refused, hBuf]
  | interrupted buf hBuf hInterrupted => simp [hLock, WriteCall.Refused, hInterrupted]
  | refused buf hBuf hInterrupted _ hMemory =>
      simpa [WriteCall.Refused, hBuf, hInterrupted] using hMemory
  | served buf hBuf hInterrupted _ hMemory _ _ hUnlocked =>
      simpa [hUnlocked, WriteCall.Refused, hBuf, hInterrupted] using hMemory

theorem exec_mxLock (h : Represents system.world log) (hLock : system.world.dev.mxLock = false)
    (hExec : System.exec op system = .ok (reply, next)) :
    next.world.dev.mxLock = false ↔ ¬ op.Refused system := by
  by_cases hOp : ∀ fd call, op ≠ .write fd call
  · have hNot : ¬ op.Refused system := fun ⟨fd, call, hWrite, _⟩ => hOp fd call hWrite
    rw [exec_world hExec hOp]
    exact iff_of_true hLock hNot
  · simp only [not_forall, not_not] at hOp
    obtain ⟨fd, call, rfl⟩ := hOp
    obtain ⟨world, hWrite, rfl⟩ := exec_write hExec
    have hRefused : (Op.write fd call).Refused system ↔ call.Refused system.world.dev := by
      refine ⟨?_, fun hCall => ⟨fd, call, rfl, hCall⟩⟩
      rintro ⟨_, _, hSame, hCall⟩
      cases hSame
      exact hCall
    rw [hRefused]
    exact aesdWrite_mxLock h hLock hWrite

theorem run_mxLock {trace : List (Op × Reply)}
    (hAlong : Along System.exec (fun system op _ => ¬ op.Refused system) ops System.initial)
    (hRun : run System.exec ops System.initial = .ok (trace, system)) :
    system.world.dev.mxLock = false :=
  (run_induct
    (fun history system => Represents system.world (logOf history) ∧ system.world.dev.mxLock = false)
    (fun history state op reply next ⟨hState, hLock⟩ hExec hAllowed => by
      rw [logOf_concat]
      exact ⟨exec_represents hState hExec, (exec_mxLock hState hLock hExec).mpr hAllowed⟩)
    [] ⟨represents_initial, rfl⟩ hAlong hRun).2

/-- The lock is given back after every operation exactly in the runs in
which no write is refused its memory. -/
theorem lockDiscipline_iff (ops : List Op) : LockDiscipline ops ↔
    Along System.exec (fun system op _ => ¬ op.Refused system) ops System.initial := by
  constructor
  · intro hDiscipline
    rw [along_iff_split]
    intro before op after trace middle reply next hOps hRun hExec
    have hBefore := hDiscipline.free before _ trace middle hOps hRun
    have hLast : run System.exec (before ++ [op]) System.initial =
        .ok (trace ++ [(op, reply)], next) :=
      run_append_ok_iff.mpr ⟨trace, middle, _, hRun, run_cons_of_ok hExec run_nil, rfl⟩
    have hAfter := hDiscipline.free (before ++ [op]) after _ next (by simp [hOps]) hLast
    exact (exec_mxLock (run_represents hRun) hBefore hExec).mp hAfter
  · intro hAlong
    have hFree : ∀ before after trace system, ops = before ++ after →
        run System.exec before System.initial = .ok (trace, system) →
        system.world.dev.mxLock = false := by
      rintro before after trace system rfl hRun
      exact run_mxLock (along_of_append hAlong) hRun
    refine ⟨hFree, fun hBlocked => ?_⟩
    obtain ⟨before, op, after, trace, middle, hOps, hRun, hExec⟩ := run_error hBlocked
    exact exec_ne_blocked (run_represents hRun) (hFree before _ trace middle hOps hRun) hExec

/-- A write that is refused its memory, of one byte. -/
def refusedWrite : WriteCall := ⟨some [97], false, false, 0, fun _ => 0⟩

/-- One refused write blocks the device for good. -/
theorem not_lockDiscipline : ¬ ∀ ops, LockDiscipline ops := by
  intro hClaim
  have hAcquired := (hClaim [.write 0 refusedWrite, .write 0 (wholeWrite [97])]).acquired
  exact hAcquired rfl

/-- What a write is about: the commands, what is pending, and the counters. -/
structure DeviceData where
  stored : List (Except Stop (List Byte))
  pending : Except Stop (List Byte)
  tmpSize : Nat
  bufferSize : Nat
  deriving DecidableEq

def World.data (world : World) : DeviceData :=
  ⟨world.stored, world.pending, world.dev.tmpSize, world.dev.bufferSize⟩

/-- The answer of a write and the data after it. -/
def writeEffect (call : WriteCall) (world : World) : Except Stop (Int × DeviceData) :=
  (aesdWrite call world).map fun result => (result.1, result.2.data)

/-- The data is as it was, and the same bytes can be written again as if
they had not been written before. -/
structure LeavesNoTrace (call : WriteCall) (world result : World) : Prop where
  data : result.data = world.data
  retry : ∀ again : WriteCall, again.buf = call.buf → writeEffect again result = writeEffect again world

/-- A refused write keeps the data only where nothing was pending. -/
theorem data_refused (h : Represents world log) (hLock : world.dev.mxLock = false) :
    ({ world with dev := { world.dev with mxLock := true, tmpBuf := .null } } : World).data =
      world.data ↔ world.dev.tmpSize = 0 := by
  rcases Nat.eq_zero_or_pos world.dev.tmpSize with hEmpty | hSome
  · refine iff_of_true ?_ hEmpty
    simp [World.data, World.stored, World.pending, hEmpty]
  · refine iff_of_false (fun hSame => ?_) (Nat.ne_of_gt hSome)
    have hLost : load .null 0 world.dev.tmpSize world.heap = world.pending :=
      congrArg DeviceData.pending hSame
    rw [load_null hSome, (h.tmp hLock).pending] at hLost
    cases hLost

theorem aesdWrite_data (h : Represents world log) (hWrite : aesdWrite call world = .ok (retval, result))
    (hFail : retval < 0) :
    result.data = world.data ↔ call.buf = none ∨ call.interrupted = true ∨ world.dev.tmpSize = 0 := by
  have hOutcome := aesdWrite_outcome h call
  rw [hWrite] at hOutcome
  cases hOutcome with
  | noBuffer hBuf => simp [hBuf]
  | interrupted buf hBuf hInterrupted => simp [hInterrupted]
  | refused buf hBuf hInterrupted hLock _ =>
      rw [data_refused h hLock]
      simp [hBuf, hInterrupted]
  | served => omega

/-- A failed write can be repeated exactly when it did not fail for memory:
a refused one keeps the lock, so what is written next waits for ever. -/
theorem leavesNoTrace_iff (hReach : Reachable system)
    (hWrite : aesdWrite call system.world = .ok (retval, result)) (hFail : retval < 0) :
    LeavesNoTrace call system.world result ↔ call.buf = none ∨ call.interrupted = true := by
  obtain ⟨log, hLog⟩ := hReach.represents
  have hOutcome := aesdWrite_outcome hLog call
  rw [hWrite] at hOutcome
  cases hOutcome with
  | noBuffer hBuf => exact iff_of_true ⟨rfl, fun _ _ => rfl⟩ (Or.inl hBuf)
  | interrupted buf _ hInterrupted => exact iff_of_true ⟨rfl, fun _ _ => rfl⟩ (Or.inr hInterrupted)
  | refused buf hBuf hInterrupted hLock _ =>
      refine iff_of_false (fun hTrace => ?_) (by simp [hBuf, hInterrupted])
      -- try again with memory: before the failed call this works, after it the lock is taken
      have hAgain := hTrace.retry { call with granted := true } rfl
      obtain ⟨next, hServed, _, _⟩ :=
        @aesdWrite_served _ buf _ { call with granted := true } hLog hBuf hInterrupted hLock (Or.inl rfl)
      rw [writeEffect, writeEffect, hServed] at hAgain
      simp [aesdWrite, hBuf, hInterrupted, mutexLockInterruptible, bind, Except.bind, Except.map] at hAgain
  | served => omega

/-- A stored line and a pending byte, and a write whose wait is interrupted. -/
theorem leavesNoTrace_interrupted : ∃ trace system,
    run System.exec [.write 0 (wholeWrite [97, newline]), .write 0 (wholeWrite [98])] System.initial =
        .ok (trace, system) ∧
      system.world.data = ⟨[.ok [97, newline]], .ok [98], 1, 3⟩ ∧
      LeavesNoTrace ⟨some [99], true, true, 1, fun _ => 0⟩ system.world system.world := by
  obtain ⟨trace, system, hRun, hData, hWrite⟩ : ∃ trace system,
      run System.exec [.write 0 (wholeWrite [97, newline]), .write 0 (wholeWrite [98])] System.initial =
          .ok (trace, system) ∧
        system.world.data = ⟨[.ok [97, newline]], .ok [98], 1, 3⟩ ∧
        aesdWrite ⟨some [99], true, true, 1, fun _ => 0⟩ system.world = .ok (-ERESTARTSYS, system.world) :=
    ⟨_, _, rfl, rfl, rfl⟩
  exact ⟨trace, system, hRun, hData, (leavesNoTrace_iff ⟨_, trace, hRun⟩ hWrite (by decide)).mpr (Or.inr rfl)⟩

/-- A pending byte, then a write that is refused its memory: the byte is lost. -/
theorem not_leavesNoTrace :
    ¬ ∀ (system : System) (call : WriteCall) (retval : Int) (result : World), Reachable system →
      aesdWrite call system.world = .ok (retval, result) → retval < 0 →
      LeavesNoTrace call system.world result := by
  intro hClaim
  obtain ⟨trace, system, hRun, result, hWrite, hBefore, hAfter⟩ : ∃ trace system,
      run System.exec [.write 0 (wholeWrite [97])] System.initial = .ok (trace, system) ∧ ∃ result,
        aesdWrite refusedWrite system.world = .ok (-ENOMEM, result) ∧
        system.world.pending = .ok [97] ∧ result.pending = .error .fault :=
    ⟨_, _, rfl, _, rfl, rfl, rfl⟩
  have hData := (hClaim system refusedWrite _ result ⟨_, trace, hRun⟩ hWrite (by decide)).data
  have hPending : result.pending = system.world.pending := congrArg DeviceData.pending hData
  rw [hBefore, hAfter] at hPending
  cases hPending

end Aesd
