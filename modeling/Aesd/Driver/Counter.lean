import Aesd.Driver.Turns

/-! The counter of all bytes is loaded and stored behind the unlock. What it
counts is never more than what was written, and less where two of these
sections overlap. -/
namespace Aesd
open Kernel Word Memory Execution CommandLog

/-- The call has returned what it wrote. -/
def WriteAt.finished : WriteAt → Bool
  | .returned retval => 0 ≤ retval
  | _ => false

/-- The calls that wrote, in the order in which they returned. -/
def finishOrder (trace : List (Nat × WriteAt)) : List Nat :=
  (trace.filter fun event => event.2.finished).map Prod.fst

/-- The number of bytes that calls have written. -/
def writtenBy (calls : Nat → WriteCall) (order : List Nat) : Nat :=
  (order.map fun process => (calls process).accepted.length).sum

/-- A value that the counter had: it counts some of the calls. -/
def CountsSome (calls : Nat → WriteCall) (finished : List Nat) (value : Nat) : Prop :=
  ∃ counted : List Nat, counted.Sublist finished ∧ value = writtenBy calls counted % 2 ^ 64

structure Counts (calls : Nat → WriteCall) (finished : List Nat) (state : Writers) : Prop where
  counter : CountsSome calls finished state.world.dev.bufferSize
  loaded : ∀ process retval bufferSize, state.point process = .updating retval bufferSize →
    retval = (calls process).accepted.length ∧ CountsSome calls finished bufferSize
  counting : ∀ process retval, state.point process = .counting retval →
    retval = (calls process).accepted.length
  once : finished.Nodup
  returned : ∀ process ∈ finished, ∃ retval, state.point process = .returned retval

/-- After every step the counter is the number of bytes that were written by
the calls that have returned. -/
def CounterExact (calls : Nat → WriteCall) (processes : List Nat) : Prop :=
  ∀ before after trace state, processes = before ++ after →
    run (writers calls) before Writers.initial = .ok (trace, state) →
    state.world.dev.bufferSize = writtenBy calls (finishOrder trace) % 2 ^ 64

variable {calls : Nat → WriteCall} {call : WriteCall} {world result : World} {point after : WriteAt}
  {process retval bufferSize : Nat} {order finished processes : List Nat} {state next : Writers}
  {trace : List (Nat × WriteAt)}

theorem writtenBy_concat : writtenBy calls (order ++ [process]) =
    writtenBy calls order + (calls process).accepted.length := by
  simp [writtenBy]

theorem finishOrder_concat : finishOrder (trace ++ [(process, after)]) =
    if after.finished then finishOrder trace ++ [process] else finishOrder trace := by
  split
  · next hAfter => simp [finishOrder, hAfter]
  · next hAfter => simp [finishOrder, hAfter]

theorem fillTmpBuf_bufferSize {buf : List Byte} {filled : Option Nat}
    (h : fillTmpBuf call buf world = .ok (filled, result)) :
    result.dev.bufferSize = world.dev.bufferSize := by
  unfold fillTmpBuf at h
  dsimp only at h
  split at h
  · obtain ⟨⟨tmpBuf, heap⟩, _, h⟩ := bind_ok_iff.mp h
    dsimp only at h
    split at h
    · cases h
      rfl
    · obtain ⟨_, _, h⟩ := bind_ok_iff.mp h
      obtain ⟨_, _, h⟩ := bind_ok_iff.mp h
      cases h
      rfl
  · split at h
    · cases h
      rfl
    · obtain ⟨_, _, h⟩ := bind_ok_iff.mp h
      obtain ⟨_, _, h⟩ := bind_ok_iff.mp h
      cases h
      rfl

theorem mutexLockInterruptible_bufferSize {interrupted failed : Bool} {dev locked : AesdDev}
    (h : mutexLockInterruptible interrupted dev = .ok (failed, locked)) : locked.bufferSize = dev.bufferSize := by
  unfold mutexLockInterruptible at h
  repeat' split at h
  all_goals cases h
  all_goals rfl

/-- Only the last statement touches the counter. -/
theorem writeStep_bufferSize (h : writeStep call point world = .ok (after, result))
    (hPoint : ∀ retval bufferSize, point ≠ .updating retval bufferSize) :
    result.dev.bufferSize = world.dev.bufferSize := by
  cases point with
  | returned retval => cases h
  | updating retval bufferSize => exact absurd rfl (hPoint retval bufferSize)
  | entering =>
      simp only [writeStep] at h
      split at h
      · cases h
        rfl
      · split at h
        · cases h
        · next hLock =>
          cases h
          exact mutexLockInterruptible_bufferSize hLock
        · next hLock =>
          cases h
          exact mutexLockInterruptible_bufferSize hLock
  | filling =>
      simp only [writeStep] at h
      split at h
      · cases h
      · next hFill =>
        cases h
        exact fillTmpBuf_bufferSize hFill
      · next hFill =>
        cases h
        exact fillTmpBuf_bufferSize hFill
  | _ =>
      simp only [writeStep] at h
      repeat' split at h
      all_goals cases h
      all_goals rfl

/-- A call that has written something is one that was at the last statement. -/
theorem writeStep_finished (h : writeStep call point world = .ok (after, result)) (hAfter : after.finished = true) :
    ∃ retval bufferSize, point = .updating retval bufferSize := by
  cases point with
  | updating retval bufferSize => exact ⟨retval, bufferSize, rfl⟩
  | returned retval => cases h
  | _ =>
      simp only [writeStep] at h
      repeat' split at h
      all_goals cases h
      all_goals cases hAfter

theorem writeStep_updating {retval : Nat} (h : writeStep call point world = .ok (.updating retval bufferSize, result)) :
    point = .counting retval ∧ bufferSize = world.dev.bufferSize := by
  cases point with
  | counting counted =>
      cases h
      exact ⟨rfl, rfl⟩
  | returned retval => cases h
  | _ =>
      simp only [writeStep] at h
      repeat' split at h
      all_goals cases h

theorem writeStep_counting (h : writeStep call point world = .ok (.counting retval, result)) :
    point = .unlocking retval := by
  cases point with
  | unlocking counted =>
      cases h
      rfl
  | returned retval => cases h
  | _ =>
      simp only [writeStep] at h
      repeat' split at h
      all_goals cases h

theorem CountsSome.of_sublist {value : Nat} (h : CountsSome calls finished value)
    (hMore : finished.Sublist order) : CountsSome calls order value := by
  obtain ⟨counted, hCounted, hValue⟩ := h
  exact ⟨counted, hCounted.trans hMore, hValue⟩

theorem CountsSome.concat (h : CountsSome calls finished bufferSize) :
    CountsSome calls (finished ++ [process])
      (unsigned64 ((bufferSize : Int) + ((calls process).accepted.length : Nat))) := by
  obtain ⟨counted, hCounted, hValue⟩ := h
  refine ⟨counted ++ [process], hCounted.append_right [process], ?_⟩
  rw [writtenBy_concat, hValue, ← Int.natCast_add, unsigned64_natCast]
  omega

/-- A call that does not come to its end adds nothing to what was counted. -/
theorem Counts.frame (h : Counts calls finished state) (hCounter : world.dev.bufferSize = state.world.dev.bufferSize)
    (hReturned : ∀ retval, state.point process ≠ .returned retval)
    (hLoaded : ∀ retval loaded, after = .updating retval loaded →
      retval = (calls process).accepted.length ∧ loaded = state.world.dev.bufferSize)
    (hCounting : ∀ retval, after = .counting retval → retval = (calls process).accepted.length) :
    Counts calls finished ⟨world, Function.update state.point process after⟩ where
  counter := by
    dsimp only
    rw [hCounter]
    exact h.counter
  loaded := by
    intro other retval loaded hPoint
    dsimp only at hPoint
    rw [Function.update_apply] at hPoint
    split at hPoint
    · next hSelf =>
      obtain ⟨hRetval, rfl⟩ := hLoaded retval loaded hPoint
      exact ⟨hSelf ▸ hRetval, h.counter⟩
    · exact h.loaded other retval loaded hPoint
  counting := by
    intro other retval hPoint
    dsimp only at hPoint
    rw [Function.update_apply] at hPoint
    split at hPoint
    · next hSelf => exact hSelf ▸ hCounting retval hPoint
    · exact h.counting other retval hPoint
  once := h.once
  returned := by
    intro other hOther
    obtain ⟨retval, hRetval⟩ := h.returned other hOther
    refine ⟨retval, ?_⟩
    dsimp only
    rw [Function.update_of_ne]
    · exact hRetval
    · rintro rfl
      exact hReturned retval hRetval

/-- The last statement counts what the call wrote on top of what it loaded. -/
theorem Counts.finish (h : Counts calls finished state) (hPoint : state.point process = .updating retval bufferSize) :
    Counts calls (finished ++ [process]) ⟨{ state.world with dev := { state.world.dev with
      bufferSize := unsigned64 (bufferSize + retval) } }, Function.update state.point process (.returned retval)⟩ where
  counter := by
    obtain ⟨rfl, hLoaded⟩ := h.loaded process retval bufferSize hPoint
    exact hLoaded.concat
  loaded := by
    intro other more loaded hOther
    dsimp only at hOther
    rw [Function.update_apply] at hOther
    split at hOther
    · cases hOther
    · obtain ⟨hMore, hLoaded⟩ := h.loaded other more loaded hOther
      exact ⟨hMore, hLoaded.of_sublist (List.sublist_append_left _ _)⟩
  counting := by
    intro other more hOther
    dsimp only at hOther
    rw [Function.update_apply] at hOther
    split at hOther
    · cases hOther
    · exact h.counting other more hOther
  once := by
    refine List.nodup_append.mpr ⟨h.once, List.nodup_singleton process, ?_⟩
    rintro other hOther _ hSelf rfl
    obtain ⟨more, hMore⟩ := h.returned other hOther
    rw [List.mem_singleton.mp hSelf, hPoint] at hMore
    cases hMore
  returned := by
    intro other hOther
    dsimp only
    rw [Function.update_apply]
    split
    · exact ⟨retval, rfl⟩
    · next hSelf => exact h.returned other ((List.mem_append.mp hOther).resolve_right (by simpa using hSelf))

theorem Counts.step (h : Counts calls finished state) (hTurns : Turns calls order state)
    (hStep : writers calls process state = .ok (after, next)) :
    Counts calls (if after.finished then finished ++ [process] else finished) next := by
  obtain ⟨world, hWrite, rfl⟩ := writers_ok_iff.mp hStep
  by_cases hPoint : ∃ retval bufferSize, state.point process = .updating retval bufferSize
  · obtain ⟨retval, bufferSize, hPoint⟩ := hPoint
    rw [hPoint] at hWrite
    cases hWrite
    rw [if_pos (by simp [WriteAt.finished])]
    exact h.finish hPoint
  · have hBefore : ∀ retval bufferSize, state.point process ≠ .updating retval bufferSize :=
      fun retval bufferSize hUpdating => hPoint ⟨retval, bufferSize, hUpdating⟩
    rw [if_neg (fun hAfter => hPoint (writeStep_finished hWrite hAfter))]
    refine h.frame (writeStep_bufferSize hWrite hBefore) ?_ ?_ ?_
    · intro retval hReturned
      rw [hReturned] at hWrite
      cases hWrite
    · rintro retval loaded rfl
      obtain ⟨hCounting, rfl⟩ := writeStep_updating hWrite
      exact ⟨h.counting process retval hCounting, rfl⟩
    · rintro retval rfl
      have hUnlocking := writeStep_counting hWrite
      have hLocked : (state.point process).locked = true := by
        rw [hUnlocking]
        rfl
      obtain ⟨_, _, _, _, _, _, hInside, _, _⟩ := hTurns.holder hLocked
      rw [hUnlocking] at hInside
      cases hInside
      rfl

theorem run_counts (hRun : run (writers calls) processes Writers.initial = .ok (trace, state)) :
    Turns calls (turnOrder trace) state ∧ Counts calls (finishOrder trace) state := by
  refine run_induct (fun history state => Turns calls (turnOrder history) state ∧
    Counts calls (finishOrder history) state) ?_ [] ⟨turns_initial, ?_⟩ along_true hRun
  · intro history state process after next ⟨hTurns, hCounts⟩ hStep _
    rw [turnOrder_concat, finishOrder_concat]
    exact ⟨hTurns.step hStep, hCounts.step hTurns hStep⟩
  · exact ⟨⟨[], .slnil, rfl⟩, by simp [Writers.initial], by simp [Writers.initial], List.nodup_nil,
      by simp [finishOrder]⟩

/-- In every interleaving the counter counts the bytes of some of the calls
that have returned theirs, each of them once. -/
theorem counter_counts_some (calls : Nat → WriteCall) (processes : List Nat) (trace : List (Nat × WriteAt))
    (state : Writers) (hRun : run (writers calls) processes Writers.initial = .ok (trace, state)) :
    ∃ counted : List Nat, counted.Sublist (finishOrder trace) ∧ counted.Nodup ∧
      state.world.dev.bufferSize = writtenBy calls counted % 2 ^ 64 := by
  have h := (run_counts hRun).2
  obtain ⟨counted, hCounted, hCounter⟩ := h.counter
  exact ⟨counted, hCounted, h.once.sublist hCounted, hCounter⟩

/-- Both calls load the counter before either of them stores it. -/
theorem counter_counts_some_raced : ∃ trace state, run (writers twoWrites)
    (List.replicate 11 0 ++ List.replicate 11 1 ++ [0, 1]) Writers.initial = .ok (trace, state) ∧
      finishOrder trace = [0, 1] ∧ state.world.dev.bufferSize = 2 ∧
      ∃ counted : List Nat, counted.Sublist [0, 1] ∧
        state.world.dev.bufferSize = writtenBy twoWrites counted % 2 ^ 64 := by
  obtain ⟨trace, state, hRun, hOrder, hCounter⟩ : ∃ trace state, run (writers twoWrites)
      (List.replicate 11 0 ++ List.replicate 11 1 ++ [0, 1]) Writers.initial = .ok (trace, state) ∧
        finishOrder trace = [0, 1] ∧ state.world.dev.bufferSize = 2 := ⟨_, _, rfl, rfl, rfl⟩
  obtain ⟨counted, hCounted, _, hSome⟩ := counter_counts_some twoWrites _ trace state hRun
  exact ⟨trace, state, hRun, hOrder, hCounter, counted, hOrder ▸ hCounted, hSome⟩

/-- The value that a call adds to is still that of the counter. -/
def Current (state : Writers) (process : Nat) (_ : Writers) : Prop :=
  ∀ retval bufferSize, state.point process = .updating retval bufferSize →
    bufferSize = state.world.dev.bufferSize

theorem Counts.step_exact (h : Counts calls finished state)
    (hExact : state.world.dev.bufferSize = writtenBy calls finished % 2 ^ 64)
    (hStep : writers calls process state = .ok (after, next)) :
    next.world.dev.bufferSize =
        writtenBy calls (if after.finished then finished ++ [process] else finished) % 2 ^ 64 ↔
      Current state process next := by
  obtain ⟨world, hWrite, rfl⟩ := writers_ok_iff.mp hStep
  by_cases hPoint : ∃ retval bufferSize, state.point process = .updating retval bufferSize
  · obtain ⟨retval, bufferSize, hPoint⟩ := hPoint
    rw [hPoint] at hWrite
    cases hWrite
    obtain ⟨rfl, counted, _, hLoaded⟩ := h.loaded process retval bufferSize hPoint
    have hCurrent : ∀ next, Current state process next ↔ bufferSize = state.world.dev.bufferSize := by
      intro next
      constructor
      · intro hCurrent
        exact hCurrent _ _ hPoint
      · intro hSame retval loaded hUpdating
        rw [hPoint] at hUpdating
        cases hUpdating
        exact hSame
    rw [hCurrent, if_pos (by simp [WriteAt.finished]), writtenBy_concat, hExact]
    dsimp only
    rw [← Int.natCast_add, unsigned64_natCast]
    omega
  · have hBefore : ∀ retval bufferSize, state.point process ≠ .updating retval bufferSize :=
      fun retval bufferSize hUpdating => hPoint ⟨retval, bufferSize, hUpdating⟩
    rw [if_neg (fun hAfter => hPoint (writeStep_finished hWrite hAfter))]
    refine iff_of_true ((writeStep_bufferSize hWrite hBefore).trans hExact) ?_
    exact fun retval bufferSize hUpdating => absurd hUpdating (hBefore retval bufferSize)

/-- The counter is exact after each step of exactly those interleavings in
which it never changes between the load of a call and its store. -/
theorem counterExact_iff (calls : Nat → WriteCall) (processes : List Nat) : CounterExact calls processes ↔
    Along (writers calls) Current processes Writers.initial := by
  constructor
  · intro hExact
    rw [along_iff_split]
    intro before process after trace state reply next hProcesses hRun hStep
    rw [← (run_counts hRun).2.step_exact (hExact before _ trace state hProcesses hRun) hStep]
    have hNext := hExact (before ++ [process]) after _ next (by simp [hProcesses]) (run_concat_of_ok hRun hStep)
    rw [finishOrder_concat] at hNext
    exact hNext
  · rintro hAlong before after trace state rfl hRun
    refine (run_induct (fun history state => (Turns calls (turnOrder history) state ∧
      Counts calls (finishOrder history) state) ∧
      state.world.dev.bufferSize = writtenBy calls (finishOrder history) % 2 ^ 64) ?_ [] ?_
      (along_of_append hAlong) hRun).2
    · intro history state process reply next ⟨⟨hTurns, hCounts⟩, hExact⟩ hStep hCurrent
      rw [turnOrder_concat, finishOrder_concat]
      exact ⟨⟨hTurns.step hStep, hCounts.step hTurns hStep⟩, (hCounts.step_exact hExact hStep).mpr hCurrent⟩
    · exact ⟨run_counts run_nil, rfl⟩

end Aesd
