import Aesd.Driver.CallerTurns

/-! What callers get that come at the same time: the answers of whole
operations one after another, no fault, and an end. -/
namespace Aesd
open Kernel Word Memory Execution CommandLog

variable {requests : Requests} {file : Nat → File} {order before : List Caller} {state next : Callers}
  {system : System} {caller : Caller} {other : Caller → Option Int} {world result : World} {call : WriteCall}
  {request : IoctlCall} {point after : WriteAt} {seek : SeekAt} {filp place : File}
  {entryAt : Nat → AesdBufferEntry} {process : Nat} {retval : Int} {reply : CallerAt}

/-- However the statements of writes and seeks interleave: once those that
took the lock are past it, each has answered, and has left the device and the
files, as if they had come as whole operations in the order in which they
took it; and the others have done what changes nothing. -/
theorem calls_linearize (requests : Requests) (file : Nat → File) (schedule : List Caller)
    (trace : List (Caller × CallerAt)) (state : Callers)
    (hRun : run (callers requests) schedule (.initial file) = .ok (trace, state))
    (hPast : ∀ caller ∈ callerOrder trace, state.locked caller = false) :
    (callerOrder trace).Nodup ∧
    (∃ answers system,
      run System.exec ((callerOrder trace).map requests.op) ⟨World.initial, file⟩ = .ok (answers, system) ∧
      answers.map (fun event => some event.2.retval) = (callerOrder trace).map state.answer ∧
      state.world.Alike system.world ∧ state.file = system.file) ∧
    ∀ caller, caller ∉ callerOrder trace → state.answer caller = none ∨
      ∃ retval, state.answer caller = some retval ∧
        ∀ system, System.exec (requests.op caller) system = .ok (⟨retval, []⟩, system) := by
  have h := run_callers hRun
  obtain ⟨system, hPerformed, hOccupied⟩ := h.occupied
  rw [past_unlocked hPast] at hPerformed
  cases hOccupied with
  | seeker before process hOrder hTurns hLock hPasses hInside =>
      have hHolder := hPast (.seeker process) (by simp [hOrder])
      cases hInside.locked.symm.trans hHolder
  | writers hTurns hNobody hFile =>
      refine ⟨h.once, ?_, fun caller hCaller => ?_⟩
      · obtain ⟨answers, hWrites⟩ := hPerformed.writes
        obtain ⟨final, hTaken, hAlike⟩ := hTurns.taken fun process hProcess =>
          hPast (.writer process) (mem_writersOf.mp hProcess)
        obtain rfl := hTaken.eq_world hWrites
        obtain ⟨replies, hOps, hAnswers⟩ := hPerformed
        exact ⟨replies, system, hOps, hAnswers, hAlike, hFile⟩
      · cases caller with
        | writer process =>
            rcases hTurns.outside process fun hMem => hCaller (mem_writersOf.mp hMem) with
              hEntering | ⟨retval, hReturned, hAnyway⟩
            · exact .inl (congrArg WriteAt.answer hEntering)
            · refine .inr ⟨retval, congrArg WriteAt.answer hReturned, fun system => ?_⟩
              simp only [System.exec, Requests.op, hAnyway, bind, Except.bind, pure, Except.pure]
        | seeker process =>
            rcases h.outside process hCaller with hEntering | ⟨retval, hReturned, hAnyway⟩
            · exact .inl (by simp [Callers.answer, hEntering])
            · exact .inr ⟨retval, by simp [Callers.answer, hReturned], hAnyway⟩

/-- A write and a seek, which takes the lock before the write has counted. -/
def lineAndSeek : Requests where
  write := fun _ => wholeWrite [97, newline]
  seek := fun _ => seekCall ⟨0, 1⟩ .zero
  fd := fun _ => 3

def seekOvertakes : List Caller :=
  List.replicate 10 (.writer 0) ++ List.replicate 5 (.seeker 0) ++ List.replicate 2 (.writer 0)

theorem calls_linearize_overtaken :
    ∃ trace state, run (callers lineAndSeek) seekOvertakes (.initial fun _ => ⟨0⟩) = .ok (trace, state) ∧
      state.answer (.seeker 0) = some 0 ∧
      ∃ answers system, run System.exec [lineAndSeek.op (.writer 0), lineAndSeek.op (.seeker 0)] System.initial =
          .ok (answers, system) ∧ state.world.Alike system.world ∧ state.file = system.file := by
  obtain ⟨trace, state, hRun, hOrder, hAnswer, hWriter, hSeeker⟩ : ∃ trace state,
      run (callers lineAndSeek) seekOvertakes (.initial fun _ => ⟨0⟩) = .ok (trace, state) ∧
        callerOrder trace = [.writer 0, .seeker 0] ∧ state.answer (.seeker 0) = some 0 ∧
        state.locked (.writer 0) = false ∧ state.locked (.seeker 0) = false := ⟨_, _, rfl, rfl, rfl, rfl, rfl⟩
  obtain ⟨_, ⟨answers, system, hOps, _, hAlike, hSame⟩, _⟩ :=
    calls_linearize lineAndSeek (fun _ => ⟨0⟩) seekOvertakes trace state hRun (by simp [hOrder, hWriter, hSeeker])
  rw [hOrder] at hOps
  exact ⟨trace, state, hRun, hAnswer, answers, system, hOps, hAlike, hSame⟩

/-- A write outside the lock that takes no step waits for it or has returned. -/
theorem writeStep_stop {halt : WriteHalt} (h : writeStep call point world = .error halt)
    (hPoint : point.locked = false) :
    halt = .mutex ∧ world.dev.mxLock = true ∨ halt = .order ∧ ∃ retval, point = .returned retval := by
  cases point with
  | entering => exact .inl (entering_error h)
  | returned retval =>
      cases h
      exact .inr ⟨rfl, retval, rfl⟩
  | counting retval => cases h
  | updating retval bufferSize => cases h
  | _ => cases hPoint

theorem seekStep_entering_error {halt : WriteHalt} (h : seekStep request .entering world filp = .error halt) :
    halt = .mutex ∧ world.dev.mxLock = true := by
  simp only [seekStep, mutexLockInterruptible] at h
  split at h
  · cases h
  · split at h
    · cases h
    · split at h
      · cases h
      · cases hInterrupted : request.interrupted with
        | true => simp [hInterrupted] at h
        | false =>
            cases hLock : world.dev.mxLock with
            | true =>
                simp only [hInterrupted, hLock, Bool.false_eq_true, ↓reduceIte, Except.error.injEq] at h
                exact ⟨h.symm, rfl⟩
            | false => simp [hInterrupted, hLock] at h

/-- The call of the caller has returned. -/
def Callers.Returned (state : Callers) : Caller → Prop
  | .writer process => ∃ retval, state.point process = .returned retval
  | .seeker process => ∃ retval, state.seek process = .returned retval

namespace CallersHold

/-- Whoever has the lock has a next step. -/
theorem locked_step (h : CallersHold requests file order state) (hLocked : state.locked caller = true) :
    ∃ result, callers requests caller state = .ok result := by
  obtain ⟨system, _, hOccupied⟩ := h.occupied
  cases caller with
  | writer process =>
      obtain ⟨hTurns, _⟩ := hOccupied.writers_of_locked hLocked
      obtain ⟨after, world, hStep, _⟩ := hTurns.inLock hLocked
      exact ⟨_, callers_writer hStep⟩
  | seeker process =>
      obtain ⟨_, _, _, _, _, hInside, _⟩ := hOccupied.seek_of_locked hLocked
      rcases hInside.step with ⟨later, there, hStep, _⟩ | ⟨retval, hUnlocking, _⟩
      · exact ⟨_, callers_seeker hStep⟩
      · exact ⟨_, callers_seeker (by rw [hUnlocking, seekStep])⟩

/-- A caller that takes no step waits for the lock or has returned. -/
theorem stop {halt : WriteHalt} (h : CallersHold requests file order state)
    (hStep : callers requests caller state = .error halt) :
    halt = .mutex ∧ state.world.dev.mxLock = true ∨ halt = .order ∧ state.Returned caller := by
  cases hLocked : state.locked caller with
  | true =>
      obtain ⟨result, hGoes⟩ := h.locked_step hLocked
      cases hGoes.symm.trans hStep
  | false =>
      cases caller with
      | writer process =>
          simp only [callers] at hStep
          split at hStep
          · next reason hReason =>
            cases hStep
            exact writeStep_stop hReason hLocked
          · cases hStep
      | seeker process =>
          simp only [callers] at hStep
          split at hStep
          · next reason hReason =>
            cases hStep
            cases hPoint : state.seek process with
            | entering =>
                rw [hPoint] at hReason
                exact .inl (seekStep_entering_error hReason)
            | returned retval =>
                rw [hPoint] at hReason
                cases hReason
                exact .inr ⟨rfl, retval, hPoint⟩
            | _ => simp [Callers.locked, hPoint, SeekAt.locked] at hLocked
          · cases hStep

theorem exclusive (h : CallersHold requests file order state) {first second : Caller}
    (hFirst : state.locked first = true) (hSecond : state.locked second = true) : first = second := by
  obtain ⟨system, _, hOccupied⟩ := h.occupied
  by_contra hDistinct
  cases first with
  | writer process => cases (hOccupied.exclusive hFirst (Ne.symm hDistinct)).symm.trans hSecond
  | seeker process =>
      obtain ⟨_, _, _, _, _, _, hOthers, _⟩ := hOccupied.seek_of_locked hFirst
      cases (hOthers second (Ne.symm hDistinct)).symm.trans hSecond

/-- A call on its way has a step of its own, or waits for one that has. -/
theorem progress (h : CallersHold requests file order state)
    (hGranted : ∀ process, (requests.write process).granted = true) (hGoing : ¬ state.Returned caller) :
    ∃ next, (next = caller ∨ state.locked next = true) ∧ ∃ result, callers requests next state = .ok result := by
  cases hStep : callers requests caller state with
  | ok result => exact ⟨caller, .inl rfl, result, hStep⟩
  | error halt =>
      rcases h.stop hStep with ⟨_, hLock⟩ | ⟨_, hReturned⟩
      · obtain ⟨holder, hHolder⟩ : ∃ holder, state.locked holder = true := by
          obtain ⟨system, _, hOccupied⟩ := h.occupied
          cases hOccupied with
          | writers hTurns hNobody hFile =>
              cases hTurns.guarded with
              | free final hTaken hFinal hFinalLock hRests hFree hOut => cases hFree.symm.trans hLock
              | held before holder hOrder final hTaken hFinal hFinalLock hInside =>
                  exact ⟨.writer holder, hInside.locked⟩
              | kept final hTaken hAlike hRing hRefused hHeld hOut =>
                  obtain ⟨refused, _, hNot⟩ := hRefused
                  cases (hGranted refused).symm.trans hNot
          | seeker before process hOrder hTurns hHeld hPasses hInside => exact ⟨.seeker process, hInside.locked⟩
        exact ⟨holder, .inr hHolder, h.locked_step hHolder⟩
      · exact absurd hReturned hGoing

end CallersHold

/-- In no interleaving do two callers have the lock, and in none does a
statement of a call fault. -/
theorem callers_exclude (requests : Requests) (file : Nat → File) (schedule : List Caller) :
    (∀ trace state, run (callers requests) schedule (.initial file) = .ok (trace, state) →
      ∀ first second, state.locked first = true → state.locked second = true → first = second) ∧
    ∀ stop, run (callers requests) schedule (.initial file) ≠ .error (.device stop) := by
  constructor
  · intro trace state hRun first second
    exact (run_callers hRun).exclusive
  · intro stop hError
    obtain ⟨before, caller, after, trace, state, _, hRun, hStep⟩ := run_error hError
    rcases (run_callers hRun).stop hStep with ⟨hMutex, _⟩ | ⟨hOrder, _⟩
    · cases hMutex
    · cases hOrder

/-- The most steps that are left to a write. -/
def WriteAt.left : WriteAt → Nat
  | .entering => 15
  | .filling => 14
  | .searching _ => 13
  | .freeing _ => 12
  | .emptying _ => 11
  | .addingEntry _ => 10
  | .wrappingOut _ => 9
  | .storing _ => 8
  | .advancingIn _ => 7
  | .wrappingIn _ => 6
  | .flagging _ => 5
  | .clearing _ => 4
  | .unlocking _ => 3
  | .counting _ => 2
  | .updating _ _ => 1
  | .returned _ => 0

/-- The most steps that are left to a seek. -/
def SeekAt.left : SeekAt → Nat
  | .entering => 15
  | .summing index _ => 14 - index
  | .testing _ _ => 3
  | .placing _ _ => 2
  | .unlocking _ => 1
  | .returned _ => 0

def Callers.left (state : Callers) : Caller → Nat
  | .writer process => (state.point process).left
  | .seeker process => (state.seek process).left

theorem writeStep_left (h : writeStep call point world = .ok (after, result)) : after.left < point.left := by
  cases point with
  | returned retval => cases h
  | _ =>
      simp only [writeStep] at h
      repeat' split at h
      all_goals cases h
      all_goals simp [WriteAt.left]

theorem InSeek.index_le {index : Nat} {locOff : Int} (h : InSeek request entryAt filp (.summing index locOff) place) :
    index ≤ request.seekCmd.writeCmd.toNat := by
  cases h with
  | summing _ _ hIndex => exact hIndex

/-- The loop of a seek goes over no more slots than there are. -/
theorem seekStep_left {later : SeekAt} (h : seekStep request seek world filp = .ok (later, result, place))
    (hIndex : ∀ index locOff, seek = .summing index locOff → index ≤ aesdcharMaxWriteOperationsSupported) :
    later.left < seek.left := by
  cases seek with
  | entering =>
      obtain ⟨_, ⟨retval, rfl, _⟩ | ⟨rfl, _⟩⟩ := seekStep_entering h
      · exact Nat.succ_pos _
      · exact Nat.lt_succ_self _
  | summing index locOff =>
      have hBound := hIndex index locOff rfl
      simp only [aesdcharMaxWriteOperationsSupported] at hBound
      simp only [seekStep] at h
      repeat' split at h
      all_goals
        cases h
        simp only [SeekAt.left]
        omega
  | testing retval locOff =>
      simp only [seekStep] at h
      repeat' split at h
      all_goals
        cases h
        simp only [SeekAt.left]
        omega
  | placing retval locOff =>
      cases h
      exact Nat.lt_succ_self _
  | unlocking retval =>
      cases h
      exact Nat.lt_succ_self _
  | returned retval => cases h

/-- A step leaves its caller with less to go, and the others with as much. -/
theorem CallersHold.left (h : CallersHold requests file order state)
    (hStep : callers requests caller state = .ok (reply, next)) :
    next.left caller < state.left caller ∧ ∀ other, other ≠ caller → next.left other = state.left other := by
  cases caller with
  | writer process =>
      simp only [callers] at hStep
      split at hStep
      · cases hStep
      · next after result hWrite =>
        cases hStep
        refine ⟨?_, fun other hOther => ?_⟩
        · simpa [Callers.left, Callers.wrote] using writeStep_left hWrite
        · cases other with
          | writer other =>
              have hNe : other ≠ process := fun hSame => hOther (hSame ▸ rfl)
              simp [Callers.left, Callers.wrote, hNe]
          | seeker other => rfl
  | seeker process =>
      simp only [callers] at hStep
      split at hStep
      · cases hStep
      · next later result place hSeek =>
        cases hStep
        refine ⟨?_, fun other hOther => ?_⟩
        · have hIndex : ∀ index locOff, state.seek process = .summing index locOff →
              index ≤ aesdcharMaxWriteOperationsSupported := by
            intro index locOff hPoint
            obtain ⟨system, _, hOccupied⟩ := h.occupied
            obtain ⟨_, _, _, _, hPasses, hInside, _⟩ := hOccupied.seek_of_locked (by rw [hPoint]; rfl)
            rw [hPoint] at hInside
            exact hInside.index_le.trans hPasses.bound
          rw [Callers.left, sought_seek_self]
          exact seekStep_left hSeek hIndex
        · cases other with
          | writer other => rfl
          | seeker other =>
              have hNe : other ≠ process := fun hSame => hOther (hSame ▸ rfl)
              simp [Callers.left, Callers.sought, hNe]

/-- Where the memory of the writes is granted all calls come to their end: in
no run has a caller more than fifteen steps, and one that has not returned
has a next step, or waits for one that has. -/
theorem callers_complete (requests : Requests) (hGranted : ∀ process, (requests.write process).granted = true)
    (file : Nat → File) (schedule : List Caller) (trace : List (Caller × CallerAt)) (state : Callers)
    (hRun : run (callers requests) schedule (.initial file) = .ok (trace, state)) (caller : Caller) :
    schedule.count caller ≤ 15 ∧
    (state.Returned caller ∨
      ∃ next, (next = caller ∨ state.locked next = true) ∧ ∃ result, callers requests next state = .ok result) := by
  constructor
  · have hCount := run_induct
      (fun history state => CallersHold requests file (callerOrder history) state ∧
        (history.map Prod.fst).count caller + state.left caller ≤ 15)
      (fun history state other reply next hHistory hStep _ => by
        obtain ⟨hHold, hLeft⟩ := hHistory
        obtain ⟨hLess, hOthers⟩ := hHold.left hStep
        refine ⟨by rw [callerOrder_concat]; exact hHold.step hStep, ?_⟩
        rw [List.map_append, List.count_append]
        by_cases hSelf : other = caller
        · subst hSelf
          simp only [List.map_cons, List.map_nil, List.count_singleton_self]
          omega
        · rw [hOthers caller (Ne.symm hSelf)]
          simpa [List.count_singleton, hSelf] using hLeft)
      [] ⟨callersHold_initial, by cases caller <;> exact Nat.le_refl 15⟩ along_true hRun
    rw [List.nil_append, trace_actions hRun] at hCount
    omega
  · by_cases hReturned : state.Returned caller
    · exact .inl hReturned
    · exact .inr ((run_callers hRun).progress hGranted hReturned)

/-- A seek that waits for the write that has the lock. -/
theorem callers_complete_waiting :
    ∃ trace state, run (callers lineAndSeek) [.writer 0, .writer 0] (.initial fun _ => ⟨0⟩) = .ok (trace, state) ∧
      callers lineAndSeek (.seeker 0) state = .error .mutex ∧
      ∃ next, state.locked next = true ∧ ∃ result, callers lineAndSeek next state = .ok result := by
  obtain ⟨trace, state, hRun, hWaits, hEntering⟩ : ∃ trace state,
      run (callers lineAndSeek) [.writer 0, .writer 0] (.initial fun _ => ⟨0⟩) = .ok (trace, state) ∧
        callers lineAndSeek (.seeker 0) state = .error .mutex ∧ state.seek 0 = .entering := ⟨_, _, rfl, rfl, rfl⟩
  obtain ⟨_, hProgress⟩ := callers_complete lineAndSeek (fun _ => rfl) (fun _ => ⟨0⟩) _ trace state hRun (.seeker 0)
  obtain ⟨retval, hReturned⟩ | ⟨next, hNext, result, hStep⟩ := hProgress
  · cases hEntering.symm.trans hReturned
  · refine ⟨trace, state, hRun, hWaits, next, hNext.resolve_left ?_, result, hStep⟩
    rintro rfl
    cases hWaits.symm.trans hStep

end Aesd
