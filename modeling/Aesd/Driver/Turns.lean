import Aesd.Driver.UnderLock

/-! Writes take turns. Whatever steps the callers take in whatever order, what
the lock guards is as if the calls had come one after another, in the order
in which they took the lock. -/
namespace Aesd
open Kernel Word Memory Execution CommandLog

/-- The call has the lock. -/
def WriteAt.locked : WriteAt → Bool
  | .entering | .counting _ | .updating _ _ | .returned _ => false
  | _ => true

/-- What a call that is past the lock answers. -/
def WriteAt.answer : WriteAt → Option Int
  | .counting retval | .updating retval _ => some retval
  | .returned retval => some retval
  | _ => none

/-- The calls that took the lock, in the order in which they did. -/
def turnOrder (trace : List (Nat × WriteAt)) : List Nat :=
  (trace.filter fun event => event.2 = .filling).map Prod.fst

/-- What these calls have written, in their order. -/
def writtenLog (calls : Nat → WriteCall) (order : List Nat) : WriteLog :=
  writeLog (order.map calls)

/-- Two devices that only the counter may tell apart. -/
structure World.Alike (left right : World) : Prop where
  mxLock : left.dev.mxLock = right.dev.mxLock
  stored : left.stored = right.stored
  slots : ∀ index, (left.dev.aesdCb.slot index).bytes left.heap =
    (right.dev.aesdCb.slot index).bytes right.heap
  pending : left.pending = right.pending

/-- One after another, the calls in this order lead to this device, with the
answers that they have where they are. -/
def Taken (calls : Nat → WriteCall) (point : Nat → WriteAt) (order : List Nat) (final : World) : Prop :=
  ∃ answers, run aesdWrite (order.map calls) World.initial = .ok (answers, final) ∧
    answers.map (fun event => some event.2) = order.map fun process => (point process).answer

/-- Who has the lock, and what it guards. -/
inductive Guarded (calls : Nat → WriteCall) (order : List Nat) (state : Writers) : Prop where
  | free (final : World) (hTaken : Taken calls state.point order final)
      (hFinal : Represents final (writtenLog calls order)) (hFinalLock : final.dev.mxLock = false)
      (hRests : Rests state.world (writtenLog calls order)) (hLock : state.world.dev.mxLock = false)
      (hNobody : ∀ process, (state.point process).locked = false)
  | held (before : List Nat) (process : Nat) (hOrder : order = before ++ [process]) (final : World)
      (hTaken : Taken calls state.point before final)
      (hFinal : Represents final (writtenLog calls before)) (hFinalLock : final.dev.mxLock = false)
      (hInside : InWrite (calls process) (writtenLog calls before) state.world (state.point process))
      (hLock : state.world.dev.mxLock = true)
      (hOthers : ∀ other, other ≠ process → (state.point other).locked = false)
  | kept (final : World) (hTaken : Taken calls state.point order final) (hAlike : state.world.Alike final)
      (hRing : RingHolds state.world (writtenLog calls order.dropLast).commands)
      (hRefused : ∃ process ∈ order, (calls process).granted = false) (hLock : state.world.dev.mxLock = true)
      (hNobody : ∀ process, (state.point process).locked = false)

/-- The calls so far, given the order in which some of them took the lock. -/
structure Turns (calls : Nat → WriteCall) (order : List Nat) (state : Writers) : Prop where
  guarded : Guarded calls order state
  once : order.Nodup
  inside : ∀ process ∈ order, (calls process).buf ≠ none ∧ (calls process).interrupted = false ∧
    state.point process ≠ .entering
  outside : ∀ process, process ∉ order → state.point process = .entering ∨
    ∃ retval, state.point process = .returned retval ∧
      ∀ world, aesdWrite (calls process) world = .ok (retval, world)

variable {calls : Nat → WriteCall} {call : WriteCall} {log : WriteLog} {world other final result : World}
  {point after : WriteAt} {process : Nat} {order : List Nat} {point' : Nat → WriteAt} {state next : Writers}
  {answers : List (WriteCall × Int)}

theorem InWrite.locked (h : InWrite call log world point) : point.locked = true := by
  cases h <;> rfl

theorem writtenLog_concat : writtenLog calls (order ++ [process]) =
    (writtenLog calls order).accept (calls process).accepted := by
  simp [writtenLog, writeLog, Log.acceptAll]

theorem turnOrder_concat {trace : List (Nat × WriteAt)} : turnOrder (trace ++ [(process, after)]) =
    if after = .filling then turnOrder trace ++ [process] else turnOrder trace := by
  split
  · next hAfter => simp [turnOrder, hAfter]
  · next hAfter => simp [turnOrder, hAfter]

theorem World.Alike.of_same (h : other.Alike final) (hSame : world.Same other)
    (hLock : world.dev.mxLock = other.dev.mxLock) : world.Alike final where
  mxLock := hLock.trans h.mxLock
  stored := by
    rw [← h.stored, World.stored, World.stored, hSame.heap, hSame.aesdCb]
  slots := by
    intro index
    rw [← h.slots, hSame.heap, hSame.aesdCb]
  pending := by
    rw [← h.pending, World.pending, World.pending, hSame.heap, hSame.tmpBuf, hSame.tmpSize]

theorem Rests.alike (h : Rests world log) (hFinal : Represents final log) (hFinalLock : final.dev.mxLock = false)
    (hLock : world.dev.mxLock = false) : world.Alike final where
  mxLock := hLock.trans hFinalLock.symm
  stored := h.ring.stored.trans hFinal.ring.stored.symm
  slots := h.ring.slot_bytes_eq hFinal.ring
  pending := h.tmp.pending.trans (hFinal.tmp hFinalLock).pending.symm

theorem Taken.congr (h : Taken calls state.point order final)
    (hAnswers : ∀ process ∈ order, (point' process).answer = (state.point process).answer) :
    Taken calls point' order final := by
  obtain ⟨answers, hRun, hAnswer⟩ := h
  exact ⟨answers, hRun, hAnswer.trans (List.map_congr_left hAnswers).symm⟩

/-- The calls before, and one more that answers what it has answered. -/
theorem Taken.concat {retval : Int} (h : Taken calls state.point order final)
    (hWrite : aesdWrite (calls process) final = .ok (retval, result)) (hProcess : process ∉ order)
    (hAnswer : after.answer = some retval) :
    Taken calls (Function.update state.point process after) (order ++ [process]) result := by
  have hOthers : ∀ other ∈ order, (Function.update state.point process after other).answer =
      (state.point other).answer := by
    intro other hOther
    rw [Function.update_of_ne (ne_of_mem_of_not_mem hOther hProcess)]
  obtain ⟨answers, hRun, hAnswers⟩ := h.congr hOthers
  refine ⟨answers ++ [(calls process, retval)], ?_, ?_⟩
  · rw [List.map_append]
    exact run_concat_of_ok hRun hWrite
  · rw [List.map_append, List.map_append, hAnswers]
    simp [hAnswer]

/-- A step outside the lock changes nothing that the lock guards. -/
theorem Guarded.frame (h : Guarded calls order state) (hSame : world.Same state.world)
    (hLock : world.dev.mxLock = state.world.dev.mxLock) (hBefore : (state.point process).locked = false)
    (hAfter : after.locked = false)
    (hAnswer : process ∈ order → after.answer = (state.point process).answer) :
    Guarded calls order ⟨world, Function.update state.point process after⟩ := by
  have hLocked : ∀ other, (state.point other).locked = false →
      (Function.update state.point process after other).locked = false := by
    intro other hOther
    rw [Function.update_apply]
    split
    · exact hAfter
    · exact hOther
  have hAnswers : ∀ other ∈ order, (Function.update state.point process after other).answer =
      (state.point other).answer := by
    intro other hOther
    rw [Function.update_apply]
    split
    · next hSelf => exact hSelf ▸ hAnswer (hSelf ▸ hOther)
    · rfl
  cases h with
  | free final hTaken hFinal hFinalLock hRests hFree hNobody =>
      exact .free final (hTaken.congr hAnswers) hFinal hFinalLock (hRests.of_same hSame) (hLock.trans hFree)
        fun other => hLocked other (hNobody other)
  | held before holder hOrder final hTaken hFinal hFinalLock hInside hHeld hOthers =>
      have hHolder : holder ≠ process := by
        rintro rfl
        rw [hInside.locked] at hBefore
        cases hBefore
      refine .held before holder hOrder final (hTaken.congr fun other hOther => hAnswers other ?_) hFinal
        hFinalLock ?_ (hLock.trans hHeld) fun other hOther => hLocked other (hOthers other hOther)
      · exact hOrder ▸ List.mem_append_left _ hOther
      · dsimp only
        rw [Function.update_of_ne hHolder]
        exact hInside.of_same hSame
  | kept final hTaken hAlike hRing hRefused hHeld hNobody =>
      exact .kept final (hTaken.congr hAnswers) (hAlike.of_same hSame hLock) (hRing.of_same hSame) hRefused
        (hLock.trans hHeld) fun other => hLocked other (hNobody other)

theorem aesdWrite_turn (h : Represents world log) (hLock : world.dev.mxLock = false) (hBuf : call.buf ≠ none)
    (hInterrupted : call.interrupted = false) (hFunded : call.Funded log) :
    ∃ result, aesdWrite call world = .ok (call.accepted.length, result) ∧
      Represents result (log.accept call.accepted) ∧ result.dev.mxLock = false := by
  obtain ⟨buf, hSome⟩ := Option.ne_none_iff_exists'.mp hBuf
  rw [WriteCall.funded_iff (h.tmp hLock), hSome, Option.getD_some] at hFunded
  rw [WriteCall.accepted, hSome, Option.getD_some]
  exact aesdWrite_served h hSome hInterrupted hLock hFunded

theorem aesdWrite_refused (h : Represents world log) (hLock : world.dev.mxLock = false) (hBuf : call.buf ≠ none)
    (hInterrupted : call.interrupted = false) (hFunded : ¬ call.Funded log) :
    aesdWrite call world =
      .ok (-ENOMEM, { world with dev := { world.dev with mxLock := true, tmpBuf := .null } }) := by
  rw [WriteCall.funded_iff (h.tmp hLock)] at hFunded
  have hOutcome := aesdWrite_outcome h call
  generalize aesdWrite call world = outcome at hOutcome
  cases hOutcome with
  | noBuffer hNone => exact absurd hNone hBuf
  | interrupted buf _ hSignal => simp [hInterrupted] at hSignal
  | blocked buf _ _ hHeld => simp [hLock] at hHeld
  | refused buf => rfl
  | served buf hSome _ _ hMemory =>
      rw [hSome, Option.getD_some] at hFunded
      exact absurd hMemory hFunded

/-- The lock is taken when nobody has it. -/
theorem Guarded.take (h : Guarded calls order state) (hLock : state.world.dev.mxLock = false)
    (hProcess : process ∉ order) : Guarded calls (order ++ [process])
      ⟨{ state.world with dev := { state.world.dev with mxLock := true } },
        Function.update state.point process .filling⟩ := by
  cases h with
  | free final hTaken hFinal hFinalLock hRests hFree hNobody =>
      refine .held order process rfl final (hTaken.congr ?_) hFinal hFinalLock ?_ rfl ?_
      · intro other hOther
        dsimp only
        rw [Function.update_of_ne (ne_of_mem_of_not_mem hOther hProcess)]
      · dsimp only
        rw [Function.update_self]
        exact .filling (hRests.of_same ⟨rfl, rfl, rfl, rfl⟩)
      · intro other hOther
        dsimp only
        rw [Function.update_of_ne hOther]
        exact hNobody other
  | held before holder hOrder final hTaken hFinal hFinalLock hInside hHeld hOthers => simp [hLock] at hHeld
  | kept final hTaken hAlike hRing hRefused hHeld hNobody => simp [hLock] at hHeld

/-- A call that has the lock takes its next statement. -/
theorem Guarded.inside {before : List Nat} {outcome : Except WriteHalt (WriteAt × World)}
    (hTaken : Taken calls state.point before final)
    (hFinal : Represents final (writtenLog calls before)) (hFinalLock : final.dev.mxLock = false)
    (hStep : Held (calls process) (writtenLog calls before) state.world outcome)
    (hLock : state.world.dev.mxLock = true)
    (hOthers : ∀ other, other ≠ process → (state.point other).locked = false)
    (hBefore : process ∉ before) (hBuf : (calls process).buf ≠ none)
    (hInterrupted : (calls process).interrupted = false) :
    ∃ after world, outcome = .ok (after, world) ∧ after ≠ .entering ∧ after ≠ .filling ∧
      Guarded calls (before ++ [process]) ⟨world, Function.update state.point process after⟩ := by
  have hOutside : ∀ {after : WriteAt}, after.locked = false →
      ∀ other, (Function.update state.point process after other).locked = false := by
    intro after hAfter other
    rw [Function.update_apply]
    split
    · exact hAfter
    · next hOther => exact hOthers other hOther
  cases hStep with
  | went point result hInside hOn hKept =>
      refine ⟨point, result, rfl, ?_, hOn, .held before process rfl final (hTaken.congr ?_) hFinal hFinalLock ?_
        (hKept.trans hLock) ?_⟩
      · rintro rfl
        cases hInside
      · intro other hOther
        dsimp only
        rw [Function.update_of_ne (ne_of_mem_of_not_mem hOther hBefore)]
      · dsimp only
        rw [Function.update_self]
        exact hInside
      · intro other hOther
        dsimp only
        rw [Function.update_of_ne hOther]
        exact hOthers other hOther
  | unlocked result hRests hFunded hFree =>
      obtain ⟨served, hWrite, hServed, hServedLock⟩ := aesdWrite_turn hFinal hFinalLock hBuf hInterrupted hFunded
      rw [← writtenLog_concat] at hRests hServed
      exact ⟨_, result, rfl, by simp, by simp, .free served (hTaken.concat hWrite hBefore rfl) hServed hServedLock
        hRests hFree (hOutside rfl)⟩
  | refused result hRing hFunded hTmpBuf hTmpSize hKept =>
      have hWrite := aesdWrite_refused hFinal hFinalLock hBuf hInterrupted hFunded
      refine ⟨_, result, rfl, by simp, by simp, .kept _ (hTaken.concat hWrite hBefore rfl) ⟨hKept.trans hLock, ?_,
        ?_, ?_⟩ (by simpa using hRing) ⟨process, by simp, ?_⟩ (hKept.trans hLock) (hOutside rfl)⟩
      · exact hRing.stored.trans hFinal.ring.stored.symm
      · exact hRing.slot_bytes_eq (hFinal.ring.congr rfl fun _ _ _ => rfl)
      · rw [World.pending, World.pending, hTmpBuf, hTmpSize, hFinal.tmpSize]
        exact load_congr fun id hPtr => by cases hPtr
      · rw [← Bool.not_eq_true]
        exact fun hGranted => hFunded (Or.inl hGranted)

theorem writers_ok_iff : writers calls process state = .ok (after, next) ↔
    ∃ world, writeStep (calls process) (state.point process) state.world = .ok (after, world) ∧
      next = ⟨world, Function.update state.point process after⟩ := by
  rw [writers]
  split
  · next hHalt => simp [hHalt]
  · next point world hStep =>
    rw [hStep]
    constructor
    · intro h
      cases h
      exact ⟨world, rfl, rfl⟩
    · rintro ⟨_, hSame, rfl⟩
      cases hSame
      rfl

theorem Turns.frame (h : Turns calls order state) (hSame : world.Same state.world)
    (hLock : world.dev.mxLock = state.world.dev.mxLock) (hBefore : (state.point process).locked = false)
    (hAfter : after.locked = false) (hEntered : after ≠ .entering)
    (hAnswer : process ∈ order → after.answer = (state.point process).answer)
    (hOutside : process ∉ order → ∃ retval, after = .returned retval ∧
      ∀ world, aesdWrite (calls process) world = .ok (retval, world)) :
    Turns calls order ⟨world, Function.update state.point process after⟩ where
  guarded := h.guarded.frame hSame hLock hBefore hAfter hAnswer
  once := h.once
  inside := by
    intro other hOther
    obtain ⟨hBuf, hInterrupted, hPoint⟩ := h.inside other hOther
    refine ⟨hBuf, hInterrupted, ?_⟩
    dsimp only
    rw [Function.update_apply]
    split
    · exact hEntered
    · exact hPoint
  outside := by
    intro other hOther
    dsimp only
    rw [Function.update_apply]
    split
    · next hSelf => exact Or.inr (hSelf ▸ hOutside (hSelf ▸ hOther))
    · exact h.outside other hOther

/-- A call is past its first step exactly when it took the lock or left. -/
theorem Turns.mem_of_point (h : Turns calls order state) (hEntered : state.point process ≠ .entering)
    (hReturned : ∀ retval, state.point process ≠ .returned retval) : process ∈ order := by
  by_contra hProcess
  rcases h.outside process hProcess with hEntering | ⟨retval, hRetval, _⟩
  · exact hEntered hEntering
  · exact hReturned retval hRetval

/-- The first step: a call leaves, waits, or takes the lock. -/
theorem Turns.enter (h : Turns calls order state) (hPoint : state.point process = .entering)
    (hStep : writeStep (calls process) .entering state.world = .ok (after, world)) :
    Turns calls (if after = .filling then order ++ [process] else order)
      ⟨world, Function.update state.point process after⟩ := by
  have hProcess : process ∉ order := fun hMem => (h.inside process hMem).2.2 hPoint
  have hBefore : (state.point process).locked = false := hPoint ▸ rfl
  simp only [writeStep] at hStep
  split at hStep
  · next hBuf =>
    cases hStep
    refine h.frame (.refl _) rfl hBefore rfl (by simp) (fun hMem => absurd hMem hProcess) fun _ => ⟨_, rfl, ?_⟩
    intro world
    simp only [aesdWrite, hBuf]
  · next hBuf =>
    cases hInterrupted : (calls process).interrupted with
    | true =>
        simp only [mutexLockInterruptible, hInterrupted, ↓reduceIte, Except.ok.injEq, Prod.mk.injEq] at hStep
        obtain ⟨rfl, rfl⟩ := hStep
        refine h.frame (.refl _) rfl hBefore rfl (by simp) (fun hMem => absurd hMem hProcess) fun _ => ⟨_, rfl, ?_⟩
        intro world
        obtain ⟨buf, hSome⟩ := Option.ne_none_iff_exists'.mp hBuf
        simp [aesdWrite, hSome, mutexLockInterruptible, hInterrupted, bind, Except.bind, pure, Except.pure]
    | false =>
        cases hLock : state.world.dev.mxLock with
        | true => simp [mutexLockInterruptible, hInterrupted, hLock] at hStep
        | false =>
            simp only [mutexLockInterruptible, hInterrupted, hLock, Bool.false_eq_true, ↓reduceIte,
              Except.ok.injEq, Prod.mk.injEq] at hStep
            obtain ⟨rfl, rfl⟩ := hStep
            rw [if_pos rfl]
            refine ⟨h.guarded.take hLock hProcess, by simpa using h.once.concat hProcess, ?_, ?_⟩
            · intro other hOther
              dsimp only
              rw [Function.update_apply]
              split
              · next hSelf => exact hSelf ▸ ⟨hBuf, hInterrupted, by simp⟩
              · next hSelf => exact h.inside other ((List.mem_append.mp hOther).resolve_right (by simpa using hSelf))
            · intro other hOther
              obtain ⟨hOld, hSelf⟩ := not_or.mp (mt List.mem_append.mpr hOther)
              dsimp only
              rw [Function.update_of_ne (by simpa using hSelf)]
              exact h.outside other hOld

theorem Turns.holder (h : Turns calls order state) (hPoint : (state.point process).locked = true) :
    ∃ before final, order = before ++ [process] ∧ Taken calls state.point before final ∧
      Represents final (writtenLog calls before) ∧ final.dev.mxLock = false ∧
      InWrite (calls process) (writtenLog calls before) state.world (state.point process) ∧
      state.world.dev.mxLock = true ∧ ∀ other, other ≠ process → (state.point other).locked = false := by
  cases h.guarded with
  | free final hTaken hFinal hFinalLock hRests hFree hNobody => simp [hNobody process] at hPoint
  | held before holder hOrder final hTaken hFinal hFinalLock hInside hLock hOthers =>
      have hHolder : process = holder := by
        by_contra hOther
        simp [hOthers process hOther] at hPoint
      subst hHolder
      exact ⟨before, final, hOrder, hTaken, hFinal, hFinalLock, hInside, hLock, hOthers⟩
  | kept final hTaken hAlike hRing hRefused hHeld hNobody => simp [hNobody process] at hPoint

/-- The holder of the lock always has a next step. -/
theorem Turns.inLock (h : Turns calls order state) (hPoint : (state.point process).locked = true) :
    ∃ after world, writeStep (calls process) (state.point process) state.world = .ok (after, world) ∧
      after ≠ .filling ∧ Turns calls order ⟨world, Function.update state.point process after⟩ := by
  obtain ⟨before, final, rfl, hTaken, hFinal, hFinalLock, hInside, hLock, hOthers⟩ := h.holder hPoint
  obtain ⟨hBuf, hInterrupted, _⟩ := h.inside process (by simp)
  have hBefore : process ∉ before := by
    have hOnce := h.once
    rw [List.nodup_append] at hOnce
    exact fun hMem => hOnce.2.2 process hMem process (by simp) rfl
  obtain ⟨after, world, hStep, hEntered, hFilling, hGuarded⟩ :=
    Guarded.inside hTaken hFinal hFinalLock hInside.step hLock hOthers hBefore hBuf hInterrupted
  refine ⟨after, world, hStep, hFilling, hGuarded, h.once, ?_, ?_⟩
  · intro other hOther
    obtain ⟨hOtherBuf, hOtherInterrupted, hOtherPoint⟩ := h.inside other hOther
    refine ⟨hOtherBuf, hOtherInterrupted, ?_⟩
    dsimp only
    rw [Function.update_apply]
    split
    · exact hEntered
    · exact hOtherPoint
  · intro other hOther
    have hSelf : other ≠ process := fun hSame => hOther (by simp [hSame])
    dsimp only
    rw [Function.update_of_ne hSelf]
    exact h.outside other hOther

/-- Every step of a call keeps the turns. -/
theorem Turns.step (h : Turns calls order state) (hStep : writers calls process state = .ok (after, next)) :
    Turns calls (if after = .filling then order ++ [process] else order) next := by
  obtain ⟨world, hWrite, rfl⟩ := writers_ok_iff.mp hStep
  cases hLocked : (state.point process).locked with
  | true =>
      obtain ⟨after, world, hLockedStep, hFilling, hTurns⟩ := h.inLock hLocked
      cases hLockedStep.symm.trans hWrite
      rw [if_neg hFilling]
      exact hTurns
  | false =>
      cases hPoint : state.point process with
      | entering => exact h.enter hPoint (hPoint ▸ hWrite)
      | counting retval =>
          have hMem : process ∈ order := h.mem_of_point (by simp [hPoint]) (by simp [hPoint])
          rw [hPoint] at hWrite
          cases hWrite
          exact h.frame (.refl _) rfl hLocked rfl (by simp) (fun _ => by rw [hPoint]; rfl) (absurd hMem)
      | updating retval bufferSize =>
          have hMem : process ∈ order := h.mem_of_point (by simp [hPoint]) (by simp [hPoint])
          rw [hPoint] at hWrite
          cases hWrite
          exact h.frame ⟨rfl, rfl, rfl, rfl⟩ rfl hLocked rfl (by simp) (fun _ => by rw [hPoint]; rfl) (absurd hMem)
      | returned retval =>
          rw [hPoint] at hWrite
          cases hWrite
      | _ => simp [hPoint, WriteAt.locked] at hLocked

theorem turns_initial : Turns calls [] Writers.initial where
  guarded := .free World.initial ⟨[], rfl, rfl⟩ represents_initial rfl
    ⟨ringHolds_initial, tmpHolds_nil rfl⟩ rfl fun _ => rfl
  once := List.nodup_nil
  inside := by simp
  outside := fun _ _ => Or.inl rfl

/-- Every interleaving of the calls keeps the turns. -/
theorem run_turns {processes : List Nat} {trace : List (Nat × WriteAt)}
    (hRun : run (writers calls) processes Writers.initial = .ok (trace, state)) :
    Turns calls (turnOrder trace) state := by
  refine run_induct (fun history state => Turns calls (turnOrder history) state) ?_ [] turns_initial
    along_true hRun
  intro history state process after next h hStep _
  rw [turnOrder_concat]
  exact h.step hStep

theorem entering_error {halt : WriteHalt} (h : writeStep call .entering world = .error halt) :
    halt = .mutex ∧ world.dev.mxLock = true := by
  simp only [writeStep, mutexLockInterruptible] at h
  split at h
  · cases h
  · cases hInterrupted : call.interrupted with
    | true => simp [hInterrupted] at h
    | false =>
        cases hLock : world.dev.mxLock with
        | true =>
            simp only [hInterrupted, hLock, Bool.false_eq_true, ↓reduceIte, Except.error.injEq] at h
            exact ⟨h.symm, rfl⟩
        | false => simp [hInterrupted, hLock] at h

/-- A device whose lock is free is at rest, and so is the one that the writes
would have led to. -/
theorem Turns.free (h : Turns calls order state) (hLock : state.world.dev.mxLock = false) :
    ∃ final, Taken calls state.point order final ∧ Represents final (writtenLog calls order) ∧
      final.dev.mxLock = false ∧ Rests state.world (writtenLog calls order) ∧
      ∀ process, (state.point process).locked = false := by
  cases h.guarded with
  | free final hTaken hFinal hFinalLock hRests hFree hNobody =>
      exact ⟨final, hTaken, hFinal, hFinalLock, hRests, hNobody⟩
  | held before holder hOrder final hTaken hFinal hFinalLock hInside hHeld hOthers => simp [hLock] at hHeld
  | kept final hTaken hAlike hRing hRefused hHeld hNobody => simp [hLock] at hHeld

/-- If all who took the lock are past it, the device is as they left it. -/
theorem Turns.taken (h : Turns calls order state)
    (hPast : ∀ process ∈ order, (state.point process).locked = false) :
    ∃ final, Taken calls state.point order final ∧ state.world.Alike final := by
  cases h.guarded with
  | free final hTaken hFinal hFinalLock hRests hLock hNobody =>
      exact ⟨final, hTaken, hRests.alike hFinal hFinalLock hLock⟩
  | held before holder hOrder final hTaken hFinal hFinalLock hInside hHeld hOthers =>
      have hHolder := hPast holder (by simp [hOrder])
      rw [hInside.locked] at hHolder
      cases hHolder
  | kept final hTaken hAlike hRing hRefused hHeld hNobody => exact ⟨final, hTaken, hAlike⟩

theorem Taken.eq_world (h : Taken calls point' order final)
    (hRun : run aesdWrite (order.map calls) World.initial = .ok (answers, world)) : final = world := by
  obtain ⟨_, hTaken, _⟩ := h
  rw [hRun] at hTaken
  cases hTaken
  rfl

/-- The last of the calls, on its own. -/
theorem Taken.last (h : Taken calls point' (order ++ [process]) final)
    (hRun : run aesdWrite (order.map calls) World.initial = .ok (answers, world)) :
    ∃ retval, aesdWrite (calls process) world = .ok (retval, final) ∧ (point' process).answer = some retval := by
  obtain ⟨all, hTaken, hAnswers⟩ := h
  rw [List.map_append] at hTaken
  obtain ⟨before, middle, after, hBefore, hLast, rfl⟩ := run_append_ok_iff.mp hTaken
  rw [hRun] at hBefore
  cases hBefore
  obtain ⟨retval, next, tail, hWrite, hNil, rfl⟩ := run_cons_ok_iff.mp hLast
  cases hNil
  have hLength : (answers.map fun event => some event.2).length =
      (order.map fun process => (point' process).answer).length := by
    have hActions := congrArg List.length (trace_actions hRun)
    simpa using hActions
  rw [List.map_append, List.map_append] at hAnswers
  have hEnd := (List.append_inj hAnswers hLength).2
  simp only [List.map_cons, List.map_nil, List.cons.injEq, and_true] at hEnd
  exact ⟨retval, hWrite, hEnd.symm⟩

/-- Two lines, the second of process 1. -/
def twoWrites (process : Nat) : WriteCall := wholeWrite [if process = 0 then 97 else 98, newline]

end Aesd
