import Aesd.Driver.SameLog
import Aesd.Driver.Turns

/-! Seeks among the writes. A call of `aesd_ioctl` takes the lock that the
writes take, and is taken statement by statement as they are. Of what the
user has sent it makes a copy of its own before. -/
namespace Aesd
open Kernel Word Memory Execution CommandLog

/-- The statement that a seek comes to next, with its `index`, `loc_off` and
`retval`. -/
inductive SeekAt where
  | entering
  | summing (index : Nat) (locOff : Int)
  | testing (retval locOff : Int)
  | placing (retval locOff : Int)
  | unlocking (retval : Int)
  | returned (retval : Int)
  deriving DecidableEq, Repr

/-- What was copied from the user. -/
def IoctlCall.seekCmd (call : IoctlCall) : AesdSeekto := call.arg.getD ⟨0, 0⟩

/-- One step of a seek. The `break` of the loop leaves the loop only. -/
def seekStep (call : IoctlCall) : SeekAt → World → File → Except WriteHalt (SeekAt × World × File)
  | .entering, world, filp =>
      if call.cmd ≠ AESDCHAR_IOCSEEKTO then .ok (.returned (-EINVAL), world, filp)
      else match call.arg with
      | none => .ok (.returned (-EINVAL), world, filp)
      | some seekCmd =>
          if seekCmd.writeCmd < 0 ∨ seekCmd.writeCmd.toNat > aesdcharMaxWriteOperationsSupported then
            .ok (.returned (-EINVAL), world, filp)
          else match mutexLockInterruptible call.interrupted world.dev with
          | .error _ => .error .mutex
          | .ok (true, dev) => .ok (.returned (-ERESTARTSYS), { world with dev }, filp)
          | .ok (false, dev) => .ok (.summing 0 0, { world with dev }, filp)
  | .summing index locOff, world, filp =>
      let entry := call.entryAt world.dev.aesdCb index
      if index < call.seekCmd.writeCmd.toNat then
        if entry.populated then .ok (.summing (index + 1) (signed64 (locOff + entry.size)), world, filp)
        else .ok (.testing (-EINVAL) locOff, world, filp)
      else .ok (.testing 0 locOff, world, filp)
  | .testing retval locOff, world, filp =>
      let entry := call.entryAt world.dev.aesdCb call.seekCmd.writeCmd.toNat
      if entry.populated then
        if call.seekCmd.writeCmdOffset.toNat > entry.size then .ok (.unlocking (-EINVAL), world, filp)
        else .ok (.placing retval (signed64 (locOff + call.seekCmd.writeCmdOffset.toNat)), world, filp)
      else .ok (.unlocking (-EINVAL), world, filp)
  | .placing retval locOff, world, filp => .ok (.unlocking retval, world, { filp with fPos := locOff })
  | .unlocking retval, world, filp => .ok (.returned retval, { world with dev := mutexUnlock world.dev }, filp)
  | .returned _, _, _ => .error .order

/-- What the callers ask for. Each seek names the file that it is on. -/
structure Requests where
  write : Nat → WriteCall
  seek : Nat → IoctlCall
  fd : Nat → Nat

inductive Caller where
  | writer (process : Nat)
  | seeker (process : Nat)
  deriving DecidableEq, Repr

inductive CallerAt where
  | write (point : WriteAt)
  | seek (point : SeekAt)
  deriving DecidableEq, Repr

structure Callers where
  world : World
  file : Nat → File
  point : Nat → WriteAt
  seek : Nat → SeekAt

def Callers.initial (file : Nat → File) : Callers :=
  ⟨World.initial, file, fun _ => .entering, fun _ => .entering⟩

def Callers.wrote (state : Callers) (process : Nat) (point : WriteAt) (world : World) : Callers :=
  { state with world, point := Function.update state.point process point }

def Callers.sought (state : Callers) (process fd : Nat) (seek : SeekAt) (world : World) (filp : File) : Callers :=
  { state with world, file := Function.update state.file fd filp, seek := Function.update state.seek process seek }

/-- A step of one of the callers, which answers with where it is then. -/
def callers (requests : Requests) : Machine WriteHalt Caller CallerAt Callers
  | .writer process, state =>
      match writeStep (requests.write process) (state.point process) state.world with
      | .error halt => .error halt
      | .ok (point, world) => .ok (.write point, state.wrote process point world)
  | .seeker process, state =>
      let fd := requests.fd process
      match seekStep (requests.seek process) (state.seek process) state.world (state.file fd) with
      | .error halt => .error halt
      | .ok (seek, world, filp) => .ok (.seek seek, state.sought process fd seek world filp)

/-- The seek has the lock. -/
def SeekAt.locked : SeekAt → Bool
  | .entering | .returned _ => false
  | _ => true

def Callers.locked (state : Callers) : Caller → Bool
  | .writer process => (state.point process).locked
  | .seeker process => (state.seek process).locked

/-- What a caller that is past the lock answers. -/
def Callers.answer (state : Callers) : Caller → Option Int
  | .writer process => (state.point process).answer
  | .seeker process => match state.seek process with
      | .returned retval => some retval
      | _ => none

/-- The whole operation that a caller asks for. -/
def Requests.op (requests : Requests) : Caller → Op
  | .writer process => .write process (requests.write process)
  | .seeker process => .ioctl (requests.fd process) (requests.seek process)

/-- The write that an operation is. -/
def Op.writeCall : Op → List WriteCall
  | .write _ call => [call]
  | _ => []

/-- The callers that took the lock, in the order in which they did. -/
def callerOrder (trace : List (Caller × CallerAt)) : List Caller :=
  (trace.filter fun event => event.2 = .write .filling ∨ event.2 = .seek (.summing 0 0)).map Prod.fst

/-- The writes among them. -/
def writersOf (order : List Caller) : List Nat :=
  order.filterMap fun caller => match caller with
    | .writer process => some process
    | .seeker _ => none

/-- Those of them that are past it. -/
def Callers.past (state : Callers) (order : List Caller) : List Caller :=
  order.filter fun caller => !state.locked caller

/-- The device with its lock given back. -/
def World.unlocked (world : World) : World := { world with dev := mutexUnlock world.dev }

/-- The call is one that gets to the lock, and past it. -/
structure IoctlCall.Passes (call : IoctlCall) : Prop where
  cmd : call.cmd = AESDCHAR_IOCSEEKTO
  arg : call.arg = some call.seekCmd
  bound : call.seekCmd.writeCmd.toNat ≤ aesdcharMaxWriteOperationsSupported
  interrupted : call.interrupted = false

/-- A seek under the lock is on its way to what it does as a whole. -/
inductive InSeek (call : IoctlCall) (entryAt : Nat → AesdBufferEntry) (filp : File) : SeekAt → File → Prop where
  | summing (index : Nat) (locOff : Int) (hIndex : index ≤ call.seekCmd.writeCmd.toNat)
      (hSum : sumLoop entryAt (call.seekCmd.writeCmd.toNat - index) index locOff =
        sumLoop entryAt call.seekCmd.writeCmd.toNat 0 0) : InSeek call entryAt filp (.summing index locOff) filp
  | testing (retval locOff : Int) (hSum : sumLoop entryAt call.seekCmd.writeCmd.toNat 0 0 = (retval, locOff)) :
      InSeek call entryAt filp (.testing retval locOff) filp
  | placing (retval locOff : Int) (hSeek : seekTo entryAt call.seekCmd filp = (retval, ⟨locOff⟩)) :
      InSeek call entryAt filp (.placing retval locOff) filp
  | unlocking (retval : Int) (moved : File) (hSeek : seekTo entryAt call.seekCmd filp = (retval, moved)) :
      InSeek call entryAt filp (.unlocking retval) moved

variable {requests : Requests} {order before : List Caller} {state next : Callers} {system moved : System}
  {caller : Caller} {answer other : Caller → Option Int} {world result : World} {call : WriteCall}
  {request : IoctlCall} {point after : WriteAt} {seek : SeekAt} {filp place : File}
  {entryAt entries : Nat → AesdBufferEntry} {process : Nat} {commands : List (List Byte)} {retval : Int}
  {reply : CallerAt}

/-- Under the lock a seek goes on without a change to the device, up to the
unlock. -/
theorem InSeek.step (h : InSeek request (request.entryAt world.dev.aesdCb) filp seek place) :
    (∃ later, ∃ there, seekStep request seek world place = .ok (later, world, there) ∧ later.locked = true ∧
      later ≠ .summing 0 0 ∧ InSeek request (request.entryAt world.dev.aesdCb) filp later there) ∨
    ∃ retval, seek = .unlocking retval ∧
      seekTo (request.entryAt world.dev.aesdCb) request.seekCmd filp = (retval, place) := by
  cases h with
  | summing index locOff hIndex hSum =>
      left
      by_cases hMore : index < request.seekCmd.writeCmd.toNat
      · have hLeft : request.seekCmd.writeCmd.toNat - index = request.seekCmd.writeCmd.toNat - (index + 1) + 1 := by
          omega
        rw [hLeft, sumLoop] at hSum
        cases hPopulated : (request.entryAt world.dev.aesdCb index).populated with
        | true =>
            rw [if_pos hPopulated] at hSum
            refine ⟨_, _, by simp only [seekStep, if_pos hMore, if_pos hPopulated]; rfl, rfl, by simp, ?_⟩
            exact .summing _ _ hMore hSum
        | false =>
            rw [if_neg (by simp [hPopulated])] at hSum
            refine ⟨_, _, by simp only [seekStep, if_pos hMore, hPopulated, Bool.false_eq_true, ↓reduceIte]; rfl, rfl,
              by simp, ?_⟩
            exact .testing _ _ hSum.symm
      · have hNone : request.seekCmd.writeCmd.toNat - index = 0 := by omega
        rw [hNone, sumLoop] at hSum
        refine ⟨_, _, by simp only [seekStep, if_neg hMore]; rfl, rfl, by simp, ?_⟩
        exact .testing _ _ hSum.symm
  | testing retval locOff hSum =>
      left
      by_cases hPopulated : (request.entryAt world.dev.aesdCb request.seekCmd.writeCmd.toNat).populated = true
      · by_cases hBehind : request.seekCmd.writeCmdOffset.toNat >
            (request.entryAt world.dev.aesdCb request.seekCmd.writeCmd.toNat).size
        · refine ⟨_, _, by simp only [seekStep, if_pos hPopulated, if_pos hBehind]; rfl, rfl, by simp, ?_⟩
          exact .unlocking _ _ (by simp only [seekTo, hSum, if_pos hPopulated, if_pos hBehind])
        · refine ⟨_, _, by simp only [seekStep, if_pos hPopulated, if_neg hBehind]; rfl, rfl, by simp, ?_⟩
          exact .placing _ _ (by simp only [seekTo, hSum, if_pos hPopulated, if_neg hBehind])
      · refine ⟨_, _, by simp only [seekStep, if_neg hPopulated]; rfl, rfl, by simp, ?_⟩
        exact .unlocking _ _ (by simp only [seekTo, hSum, if_neg hPopulated])
  | placing retval locOff hSeek => exact .inl ⟨_, _, rfl, rfl, by simp, .unlocking _ _ hSeek⟩
  | unlocking retval moved hSeek => exact .inr ⟨retval, rfl, hSeek⟩

/-- Behind the unlock a write neither comes back nor changes its answer. -/
theorem writeStep_past (h : writeStep call point world = .ok (after, result)) (hPoint : point.locked = false)
    (hEntered : point ≠ .entering) : after.locked = false ∧ after.answer = point.answer := by
  cases point with
  | entering => exact absurd rfl hEntered
  | counting retval =>
      cases h
      exact ⟨rfl, rfl⟩
  | updating retval bufferSize =>
      cases h
      exact ⟨rfl, rfl⟩
  | returned retval => cases h
  | _ => cases hPoint

theorem writeStep_entering (h : writeStep call .entering world = .ok (after, result)) :
    after = .filling ∧ world.dev.mxLock = false ∨ after.locked = false ∧ result = world ∧
      ∀ other, writeStep call .entering other = .ok (after, other) := by
  simp only [writeStep, mutexLockInterruptible] at h ⊢
  by_cases hBuf : call.buf = none
  · rw [if_pos hBuf] at h
    cases h
    exact .inr ⟨rfl, rfl, fun _ => by rw [if_pos hBuf]⟩
  · rw [if_neg hBuf] at h
    cases hInterrupted : call.interrupted with
    | true =>
        simp only [hInterrupted, ↓reduceIte] at h
        cases h
        exact .inr ⟨rfl, rfl, fun _ => by simp only [if_neg hBuf, ↓reduceIte]⟩
    | false =>
        cases hLock : world.dev.mxLock with
        | true => simp [hInterrupted, hLock] at h
        | false =>
            simp only [hInterrupted, hLock, Bool.false_eq_true, ↓reduceIte] at h
            cases h
            exact .inl ⟨rfl, rfl⟩

/-- While a seek has the lock, a write that goes on does not notice. -/
theorem writeStep_waiting (h : writeStep call point world = .ok (after, result)) (hPoint : point.locked = false)
    (hLock : world.dev.mxLock = true) : after.locked = false ∧ result.dev.mxLock = true ∧
      result.dev.aesdCb = world.dev.aesdCb ∧
      writeStep call point world.unlocked = .ok (after, result.unlocked) := by
  cases point with
  | entering =>
      rcases writeStep_entering h with ⟨_, hFree⟩ | ⟨hAfter, rfl, hSame⟩
      · cases hLock.symm.trans hFree
      · exact ⟨hAfter, hLock, rfl, hSame _⟩
  | counting retval =>
      cases h
      exact ⟨rfl, hLock, rfl, rfl⟩
  | updating retval bufferSize =>
      cases h
      exact ⟨rfl, hLock, rfl, rfl⟩
  | returned retval => cases h
  | _ => cases hPoint

@[simp] theorem writersOf_append {first second : List Caller} :
    writersOf (first ++ second) = writersOf first ++ writersOf second := List.filterMap_append

@[simp] theorem writersOf_writer : writersOf [.writer process] = [process] := rfl

@[simp] theorem writersOf_seeker : writersOf [.seeker process] = [] := rfl

theorem mem_writersOf : process ∈ writersOf order ↔ .writer process ∈ order := by
  rw [writersOf, List.mem_filterMap]
  constructor
  · rintro ⟨caller, hMem, hCaller⟩
    cases caller with
    | writer other =>
        cases hCaller
        exact hMem
    | seeker other => cases hCaller
  · exact fun hMem => ⟨_, hMem, rfl⟩

theorem callerOrder_concat {trace : List (Caller × CallerAt)} : callerOrder (trace ++ [(caller, reply)]) =
    if reply = .write .filling ∨ reply = .seek (.summing 0 0) then callerOrder trace ++ [caller]
    else callerOrder trace := by
  split
  · next hReply => simp [callerOrder, hReply]
  · next hReply => simp [callerOrder, hReply]

/-- A write that has not taken the lock, or has given it back, is in no turn
or keeps its answer. -/
theorem writeStep_outside (hWrite : writeStep call point world = .ok (after, result)) (hPoint : point.locked = false)
    (hTake : after ≠ .filling) : after.locked = false ∧ (point ≠ .entering → after.answer = point.answer) := by
  by_cases hEntering : point = .entering
  · subst hEntering
    rcases writeStep_entering hWrite with ⟨hAfter, _⟩ | ⟨hAfter, _⟩
    · exact absurd hAfter hTake
    · exact ⟨hAfter, absurd rfl⟩
  · obtain ⟨hAfter, hAnswer⟩ := writeStep_past hWrite hPoint hEntering
    exact ⟨hAfter, fun _ => hAnswer⟩

theorem wrote_locked_of_ne (hOther : caller ≠ .writer process) :
    (state.wrote process after result).locked caller = state.locked caller := by
  cases caller with
  | writer other =>
      have hNe : other ≠ process := fun hSame => hOther (hSame ▸ rfl)
      simp [Callers.locked, Callers.wrote, hNe]
  | seeker other => rfl

theorem wrote_answer_of_ne (hOther : caller ≠ .writer process) :
    (state.wrote process after result).answer caller = state.answer caller := by
  cases caller with
  | writer other =>
      have hNe : other ≠ process := fun hSame => hOther (hSame ▸ rfl)
      simp [Callers.answer, Callers.wrote, hNe]
  | seeker other => rfl

@[simp] theorem wrote_locked_self : (state.wrote process after result).locked (.writer process) = after.locked := by
  simp [Callers.locked, Callers.wrote]

@[simp] theorem wrote_answer_self : (state.wrote process after result).answer (.writer process) = after.answer := by
  simp [Callers.answer, Callers.wrote]

theorem sought_locked_of_ne {fd : Nat} (hOther : caller ≠ .seeker process) :
    (state.sought process fd seek result place).locked caller = state.locked caller := by
  cases caller with
  | writer other => rfl
  | seeker other =>
      have hNe : other ≠ process := fun hSame => hOther (hSame ▸ rfl)
      simp [Callers.locked, Callers.sought, hNe]

theorem sought_answer_of_ne {fd : Nat} (hOther : caller ≠ .seeker process) :
    (state.sought process fd seek result place).answer caller = state.answer caller := by
  cases caller with
  | writer other => rfl
  | seeker other =>
      have hNe : other ≠ process := fun hSame => hOther (hSame ▸ rfl)
      simp [Callers.answer, Callers.sought, hNe]

@[simp] theorem sought_locked_self {fd : Nat} :
    (state.sought process fd seek result place).locked (.seeker process) = seek.locked := by
  simp [Callers.locked, Callers.sought]

@[simp] theorem sought_seek_self {fd : Nat} : (state.sought process fd seek result place).seek process = seek :=
  Function.update_self _ _ _

theorem sought_seek_of_ne {fd other : Nat} (hOther : other ≠ process) :
    (state.sought process fd seek result place).seek other = state.seek other := Function.update_of_ne hOther _ _

@[simp] theorem sought_file_self {fd : Nat} : (state.sought process fd seek result place).file fd = place :=
  Function.update_self _ _ _

@[simp] theorem sought_file_kept {fd : Nat} : (state.sought process fd seek result (state.file fd)).file = state.file :=
  Function.update_eq_self _ _

theorem callers_writer
    (h : writeStep (requests.write process) (state.point process) state.world = .ok (after, result)) :
    callers requests (.writer process) state = .ok (.write after, state.wrote process after result) := by
  simp only [callers, h]

theorem callers_seeker (h : seekStep (requests.seek process) (state.seek process) state.world
      (state.file (requests.fd process)) = .ok (seek, result, place)) :
    callers requests (.seeker process) state =
      .ok (.seek seek, state.sought process (requests.fd process) seek result place) := by
  simp only [callers, h]

/-- Callers that have the lock or not as before are past it as before. -/
theorem past_congr (h : ∀ caller ∈ order, next.locked caller = state.locked caller) :
    next.past order = state.past order :=
  List.filter_congr fun caller hCaller => by rw [h caller hCaller]

theorem mem_past (h : caller ∈ state.past order) : caller ∈ order ∧ state.locked caller = false := by
  simpa [Callers.past] using h

/-- One more that has the lock is not past it. -/
theorem past_concat (h : state.locked caller = true) : state.past (order ++ [caller]) = state.past order := by
  simp [Callers.past, h]

/-- Callers without the lock are all past it. -/
theorem past_unlocked (h : ∀ caller ∈ order, state.locked caller = false) : state.past order = order :=
  List.filter_eq_self.mpr fun caller hCaller => by simp [h caller hCaller]

/-- If the last one has the lock, it alone is not past it. -/
theorem past_last (hOnce : (before ++ [caller]).Nodup) (hLocked : state.locked caller = true)
    (hOthers : ∀ other, other ≠ caller → state.locked other = false) :
    state.past (before ++ [caller]) = before := by
  rw [past_concat hLocked]
  refine past_unlocked fun other hOther => hOthers other ?_
  rintro rfl
  exact List.disjoint_of_nodup_append hOnce hOther (by simp)

theorem InSeek.locked (h : InSeek request entryAt filp seek place) : seek.locked = true := by
  cases h <;> rfl

/-- The first step of a seek: it leaves, whatever the device, or takes the
lock. -/
theorem seekStep_entering {later : SeekAt} (h : seekStep request .entering world filp = .ok (later, result, place)) :
    place = filp ∧ ((∃ retval, later = .returned retval ∧ result = world ∧
        ∀ other moved, aesdIoctl request other moved = .ok (retval, other, moved)) ∨
      later = .summing 0 0 ∧ request.Passes ∧ world.dev.mxLock = false ∧
        result = { world with dev := { world.dev with mxLock := true } }) := by
  simp only [seekStep] at h
  split at h
  · next hCmd =>
    cases h
    exact ⟨rfl, .inl ⟨_, rfl, rfl, fun _ _ => if_pos hCmd⟩⟩
  · next hCmd =>
    split at h
    · next hArg =>
      cases h
      exact ⟨rfl, .inl ⟨_, rfl, rfl, fun _ _ => by simp only [aesdIoctl, if_neg hCmd, hArg]⟩⟩
    · next seekCmd hArg =>
      split at h
      · next hBound =>
        cases h
        exact ⟨rfl, .inl ⟨_, rfl, rfl, fun _ _ => by simp only [aesdIoctl, if_neg hCmd, hArg, if_pos hBound]⟩⟩
      · next hBound =>
        cases hInterrupted : request.interrupted with
        | true =>
            simp only [mutexLockInterruptible, hInterrupted, ↓reduceIte] at h
            cases h
            refine ⟨rfl, .inl ⟨_, rfl, rfl, fun _ _ => ?_⟩⟩
            simp only [aesdIoctl, if_neg hCmd, hArg, if_neg hBound, mutexLockInterruptible, hInterrupted, ↓reduceIte,
              bind, Except.bind, pure, Except.pure]
        | false =>
            cases hLock : world.dev.mxLock with
            | true => simp [mutexLockInterruptible, hInterrupted, hLock] at h
            | false =>
                simp only [mutexLockInterruptible, hInterrupted, hLock, Bool.false_eq_true, ↓reduceIte] at h
                cases h
                refine ⟨rfl, .inr ⟨rfl, ⟨not_ne_iff.mp hCmd, ?_, ?_, hInterrupted⟩, rfl, rfl⟩⟩
                · rw [IoctlCall.seekCmd, hArg, Option.getD_some]
                · rw [IoctlCall.seekCmd, hArg, Option.getD_some]
                  exact Nat.le_of_not_lt (not_or.mp hBound).2

/-- The seek as a whole, on a device with the same commands. -/
theorem exec_sought {fd : Nat} (hPasses : request.Passes) (hLock : system.world.dev.mxLock = false)
    (h : RingHolds world commands) (hSystem : RingHolds system.world commands)
    (hSeek : seekTo (request.entryAt world.dev.aesdCb) request.seekCmd (system.file fd) = (retval, place)) :
    System.exec (.ioctl fd request) system = .ok (⟨retval, []⟩, system.setFile fd place) := by
  have hIoctl : aesdIoctl request system.world (system.file fd) = .ok (retval, system.world, place) := by
    rw [aesdIoctl_sought hPasses.cmd hPasses.arg hPasses.bound hPasses.interrupted hLock, seekTo_ringHolds h hSystem,
      hSeek]
  simp only [System.exec, hIoctl, bind, Except.bind, pure, Except.pure]

end Aesd
