import Aesd.Driver.Callers

/-! The turns of the callers. Those that are past the lock have done whole
operations, in the order in which they took it; the last one may be on its
way. -/
namespace Aesd
open Kernel Word Memory Execution CommandLog

/-- One after another, as whole operations, the callers lead to this system,
with the answers that they have where they are. -/
def Performed (requests : Requests) (file : Nat → File) (answer : Caller → Option Int) (order : List Caller)
    (system : System) : Prop :=
  ∃ answers, run System.exec (order.map requests.op) ⟨World.initial, file⟩ = .ok (answers, system) ∧
    answers.map (fun event => some event.2.retval) = order.map answer

/-- Who has the lock: one of the writes or nobody, or one of the seeks. -/
inductive Occupied (requests : Requests) (order : List Caller) (state : Callers) (system : System) : Prop where
  | writers (hTurns : Turns requests.write (writersOf order) ⟨state.world, state.point⟩)
      (hNobody : ∀ process, (state.seek process).locked = false) (hFile : state.file = system.file)
  | seeker (before : List Caller) (process : Nat) (hOrder : order = before ++ [.seeker process])
      (hTurns : Turns requests.write (writersOf order) ⟨state.world.unlocked, state.point⟩)
      (hLock : state.world.dev.mxLock = true) (hPasses : (requests.seek process).Passes)
      (hInside : InSeek (requests.seek process) ((requests.seek process).entryAt state.world.dev.aesdCb)
        (system.file (requests.fd process)) (state.seek process) (state.file (requests.fd process)))
      (hOthers : ∀ other, other ≠ process → (state.seek other).locked = false)
      (hFile : ∀ fd, fd ≠ requests.fd process → state.file fd = system.file fd)

/-- The calls so far, given the order in which some of them took the lock. -/
structure CallersHold (requests : Requests) (file : Nat → File) (order : List Caller) (state : Callers) :
    Prop where
  occupied : ∃ system, Performed requests file state.answer (state.past order) system ∧
    Occupied requests order state system
  once : order.Nodup
  last : ∀ process, (state.point process).locked = true → order.getLast? = some (.writer process)
  inside : ∀ process, .seeker process ∈ order → state.seek process ≠ .entering
  outside : ∀ process, .seeker process ∉ order → state.seek process = .entering ∨
    ∃ retval, state.seek process = .returned retval ∧
      ∀ system, System.exec (requests.op (.seeker process)) system = .ok (⟨retval, []⟩, system)

variable {requests : Requests} {file : Nat → File} {order before : List Caller} {state next : Callers}
  {system moved : System} {caller : Caller} {answer other : Caller → Option Int} {world result : World}
  {call : WriteCall} {after : WriteAt} {seek : SeekAt} {place : File} {process : Nat} {retval : Int}
  {reply : CallerAt}

/-- An operation changes the device as the write does that it is. -/
theorem exec_writeCall {op : Op} {reply : Reply} (hSame : system.world = world)
    (hExec : System.exec op system = .ok (reply, moved)) :
    ∃ answers result, run aesdWrite op.writeCall world = .ok (answers, result) ∧ moved.world = result := by
  subst hSame
  cases op with
  | write fd call =>
      obtain ⟨world, hWrite, rfl⟩ := exec_write hExec
      exact ⟨_, _, run_cons_of_ok hWrite run_nil, rfl⟩
  | _ => exact ⟨_, _, run_nil, exec_world hExec (by rintro _ _ ⟨⟩)⟩

theorem flatMap_writeCall : (order.map requests.op).flatMap Op.writeCall = (writersOf order).map requests.write := by
  induction order with
  | nil => rfl
  | cons caller rest ih =>
      rw [List.map_cons, List.flatMap_cons, ih]
      cases caller <;> rfl

namespace Performed

theorem congr (h : Performed requests file answer order system)
    (hAnswer : ∀ caller ∈ order, other caller = answer caller) : Performed requests file other order system := by
  obtain ⟨answers, hRun, hAnswers⟩ := h
  exact ⟨answers, hRun, hAnswers.trans (List.map_congr_left hAnswer).symm⟩

/-- One more operation, which answers what its caller has answered. -/
theorem concat (h : Performed requests file answer order system)
    (hExec : System.exec (requests.op caller) system = .ok (⟨retval, []⟩, moved))
    (hAnswer : answer caller = some retval) : Performed requests file answer (order ++ [caller]) moved := by
  obtain ⟨answers, hRun, hAnswers⟩ := h
  refine ⟨answers ++ [(requests.op caller, ⟨retval, []⟩)], ?_, ?_⟩
  · rw [List.map_append]
    exact run_concat_of_ok hRun hExec
  · rw [List.map_append, List.map_append, hAnswers]
    simp [hAnswer]

/-- The writes among the operations are a run of writes to the device. -/
theorem writes (h : Performed requests file answer order system) :
    ∃ answers, run aesdWrite ((writersOf order).map requests.write) World.initial = .ok (answers, system.world) := by
  obtain ⟨answers, hRun, _⟩ := h
  obtain ⟨written, world, hWrites, rfl⟩ := run_project Op.writeCall (fun system world => system.world = world)
    (fun _ _ _ _ _ hSame hExec => exec_writeCall hSame hExec) rfl hRun
  rw [flatMap_writeCall] at hWrites
  exact ⟨written, hWrites⟩

end Performed

namespace Occupied

theorem entered (h : Occupied requests order state system) (hMem : .writer process ∈ order) :
    state.point process ≠ .entering := by
  cases h with
  | writers hTurns => exact (hTurns.inside process (mem_writersOf.mpr hMem)).2.2
  | seeker before other hOrder hTurns => exact (hTurns.inside process (mem_writersOf.mpr hMem)).2.2

/-- While a seek has the lock, no write has it. -/
theorem writers_of_locked (h : Occupied requests order state system) (hLocked : (state.point process).locked = true) :
    Turns requests.write (writersOf order) ⟨state.world, state.point⟩ ∧
      (∀ process, (state.seek process).locked = false) ∧ state.file = system.file := by
  cases h with
  | writers hTurns hNobody hFile => exact ⟨hTurns, hNobody, hFile⟩
  | seeker before other hOrder hTurns =>
      obtain ⟨_, _, _, _, _, hFree⟩ := hTurns.free rfl
      rw [hFree process] at hLocked
      cases hLocked

/-- The seek that has the lock came last, and the others are past it. -/
theorem seek_of_locked (h : Occupied requests order state system) (hLocked : (state.seek process).locked = true) :
    ∃ before, order = before ++ [.seeker process] ∧
      Turns requests.write (writersOf order) ⟨state.world.unlocked, state.point⟩ ∧
      state.world.dev.mxLock = true ∧ (requests.seek process).Passes ∧
      InSeek (requests.seek process) ((requests.seek process).entryAt state.world.dev.aesdCb)
        (system.file (requests.fd process)) (state.seek process) (state.file (requests.fd process)) ∧
      (∀ caller, caller ≠ .seeker process → state.locked caller = false) ∧
      ∀ fd, fd ≠ requests.fd process → state.file fd = system.file fd := by
  cases h with
  | writers hTurns hNobody hFile => cases (hNobody process).symm.trans hLocked
  | seeker before holder hOrder hTurns hLock hPasses hInside hOthers hFile =>
      obtain rfl : process = holder := by
        by_contra hOther
        cases (hOthers process hOther).symm.trans hLocked
      obtain ⟨_, _, _, _, _, hFree⟩ := hTurns.free rfl
      refine ⟨before, hOrder, hTurns, hLock, hPasses, hInside, fun caller hCaller => ?_, hFile⟩
      cases caller with
      | writer other => exact hFree other
      | seeker other => exact hOthers other fun hSame => hCaller (hSame ▸ rfl)

theorem exclusive (h : Occupied requests order state system) (hLocked : (state.point process).locked = true)
    (hOther : caller ≠ .writer process) : state.locked caller = false := by
  obtain ⟨hTurns, hNobody, _⟩ := h.writers_of_locked hLocked
  obtain ⟨_, _, _, _, _, _, _, _, hOthers⟩ := hTurns.holder hLocked
  cases caller with
  | writer other => exact hOthers other fun hSame => hOther (hSame ▸ rfl)
  | seeker other => exact hNobody other

end Occupied

namespace CallersHold

/-- A write step by which no lock is taken or given back. -/
theorem write_kept (h : CallersHold requests file order state)
    (hLocked : after.locked = (state.point process).locked)
    (hAnswer : (state.point process).locked = false → .writer process ∈ order →
      after.answer = (state.point process).answer)
    (hOccupied : ∀ system, Occupied requests order state system →
      Occupied requests order (state.wrote process after result) system) :
    CallersHold requests file order (state.wrote process after result) := by
  obtain ⟨system, hPerformed, hBefore⟩ := h.occupied
  have hSame : ∀ caller, (state.wrote process after result).locked caller = state.locked caller := by
    intro caller
    by_cases hSelf : caller = .writer process
    · subst hSelf
      exact wrote_locked_self.trans hLocked
    · exact wrote_locked_of_ne hSelf
  refine ⟨⟨system, ?_, hOccupied system hBefore⟩, h.once, fun other hOther => ?_, h.inside, h.outside⟩
  · rw [past_congr fun caller _ => hSame caller]
    refine hPerformed.congr fun caller hCaller => ?_
    obtain ⟨hMem, hPast⟩ := mem_past hCaller
    by_cases hSelf : caller = .writer process
    · subst hSelf
      exact wrote_answer_self.trans (hAnswer hPast hMem)
    · exact wrote_answer_of_ne hSelf
  · exact h.last other ((hSame (.writer other)).symm.trans hOther)

/-- A write step outside the lock. -/
theorem write_outside (h : CallersHold requests file order state)
    (hWrite : writeStep (requests.write process) (state.point process) state.world = .ok (after, result))
    (hLocked : (state.point process).locked = false) (hTake : after ≠ .filling) :
    CallersHold requests file order (state.wrote process after result) := by
  obtain ⟨hAfter, hAnswer⟩ := writeStep_outside hWrite hLocked hTake
  obtain ⟨_, _, hBefore⟩ := h.occupied
  refine h.write_kept (hAfter.trans hLocked.symm) (fun _ hMem => hAnswer (hBefore.entered hMem)) ?_
  intro system hOccupied
  cases hOccupied with
  | writers hTurns hNobody hFile =>
      have hNext := hTurns.step (writers_ok_iff.mpr ⟨result, hWrite, rfl⟩)
      rw [if_neg hTake] at hNext
      exact .writers hNext hNobody hFile
  | seeker before other hOrder hTurns hLock hPasses hInside hOthers hFile =>
      obtain ⟨_, hStill, hCb, hView⟩ := writeStep_waiting hWrite hLocked hLock
      have hNext := hTurns.step (writers_ok_iff.mpr ⟨result.unlocked, hView, rfl⟩)
      rw [if_neg hTake] at hNext
      refine .seeker before other hOrder hNext hStill hPasses ?_ hOthers hFile
      show InSeek (requests.seek other) ((requests.seek other).entryAt result.dev.aesdCb) _ _ _
      rw [hCb]
      exact hInside

/-- A write takes the lock. -/
theorem write_take (h : CallersHold requests file order state)
    (hWrite : writeStep (requests.write process) (state.point process) state.world = .ok (.filling, result))
    (hLocked : (state.point process).locked = false) :
    CallersHold requests file (order ++ [.writer process]) (state.wrote process .filling result) := by
  obtain ⟨system, hPerformed, hOccupied⟩ := h.occupied
  have hEntering : state.point process = .entering := by
    by_contra hEntered
    cases (writeStep_past hWrite hLocked hEntered).1
  have hNew : .writer process ∉ order := fun hMem => hOccupied.entered hMem hEntering
  have hOthers : ∀ caller ∈ order, caller ≠ .writer process := fun caller hCaller hSame => hNew (hSame ▸ hCaller)
  have hSame : ∀ caller ∈ order, (state.wrote process .filling result).locked caller = state.locked caller :=
    fun caller hCaller => wrote_locked_of_ne (hOthers caller hCaller)
  cases hOccupied with
  | writers hTurns hNobody hFile =>
      have hNext := hTurns.step (writers_ok_iff.mpr ⟨result, hWrite, rfl⟩)
      rw [if_pos rfl] at hNext
      have hFree : state.world.dev.mxLock = false := by
        rw [hEntering] at hWrite
        rcases writeStep_entering hWrite with ⟨_, hFree⟩ | ⟨hNot, _⟩
        · exact hFree
        · cases hNot
      obtain ⟨_, _, _, _, _, hOut⟩ := hTurns.free hFree
      refine ⟨⟨system, ?_, .writers ?_ hNobody hFile⟩, by simpa using h.once.concat hNew, ?_, ?_, ?_⟩
      · rw [past_concat (by rw [wrote_locked_self]; rfl), past_congr hSame]
        exact hPerformed.congr fun caller hCaller => wrote_answer_of_ne (hOthers caller (mem_past hCaller).1)
      · rw [writersOf_append, writersOf_writer]
        exact hNext
      · intro other hOther
        by_cases hSelf : other = process
        · rw [hSelf, List.getLast?_concat]
        · have hStill : (state.wrote process .filling result).locked (.writer other) = state.locked (.writer other) :=
            wrote_locked_of_ne (by simpa using hSelf)
          cases (hOut other).symm.trans (hStill.symm.trans hOther)
      · exact fun other hOther => h.inside other (by simpa using hOther)
      · exact fun other hOther => h.outside other (by simpa using hOther)
  | seeker before other hOrder hTurns hLock hPasses hInside hOthers hFile =>
      cases (writeStep_waiting hWrite hLocked hLock).1

/-- A write that has the lock goes on, or gives it back. -/
theorem write_inside (h : CallersHold requests file order state)
    (hWrite : writeStep (requests.write process) (state.point process) state.world = .ok (after, result))
    (hLocked : (state.point process).locked = true) :
    after ≠ .filling ∧ CallersHold requests file order (state.wrote process after result) := by
  obtain ⟨system, hPerformed, hOccupied⟩ := h.occupied
  obtain ⟨hTurns, hNobody, hFile⟩ := hOccupied.writers_of_locked hLocked
  obtain ⟨_, _, hStep, hFilling, _⟩ := hTurns.inLock hLocked
  cases hStep.symm.trans hWrite
  have hNext := hTurns.step (writers_ok_iff.mpr ⟨result, hWrite, rfl⟩)
  rw [if_neg hFilling] at hNext
  refine ⟨hFilling, ?_⟩
  cases hAfter : after.locked with
  | true =>
      refine h.write_kept (hAfter.trans hLocked.symm) (fun hOut => ?_) fun system hOther => ?_
      · cases hLocked.symm.trans hOut
      · exact .writers hNext hNobody (hOther.writers_of_locked hLocked).2.2
  | false =>
      obtain ⟨before, hOrder⟩ := List.getLast?_eq_some_iff.mp (h.last process hLocked)
      have hOnce := h.once
      rw [hOrder] at hPerformed hNext hOnce ⊢
      have hOthers : ∀ caller, caller ≠ .writer process → (state.wrote process after result).locked caller = false :=
        fun caller hNe => (wrote_locked_of_ne hNe).trans (hOccupied.exclusive hLocked hNe)
      have hAll : ∀ caller, (state.wrote process after result).locked caller = false := by
        intro caller
        by_cases hSelf : caller = .writer process
        · rw [hSelf, wrote_locked_self, hAfter]
        · exact hOthers caller hSelf
      rw [past_last hOnce hLocked fun other hNe => hOccupied.exclusive hLocked hNe] at hPerformed
      obtain ⟨answers, hRun⟩ := hPerformed.writes
      obtain ⟨final, hTaken, _⟩ := hNext.taken fun other _ => hAll (.writer other)
      rw [writersOf_append, writersOf_writer] at hTaken
      obtain ⟨retval, hAlone, hAnswer⟩ := hTaken.last hRun
      have hExec : System.exec (requests.op (.writer process)) system =
          .ok (⟨retval, []⟩, { system with world := final }) := by
        simp only [System.exec, Requests.op, hAlone, bind, Except.bind, pure, Except.pure]
      refine ⟨⟨{ system with world := final }, ?_, .writers hNext hNobody hFile⟩, hOnce, fun other hOther => ?_, ?_, ?_⟩
      · rw [past_unlocked fun caller _ => hAll caller]
        refine (hPerformed.congr fun caller hCaller => wrote_answer_of_ne ?_).concat hExec hAnswer
        rintro rfl
        exact List.disjoint_of_nodup_append hOnce hCaller (by simp)
      · cases (hAll (.writer other)).symm.trans hOther
      · exact hOrder ▸ h.inside
      · exact hOrder ▸ h.outside

/-- A step of a seek does not matter to where the others are. -/
theorem seek_moved {fd : Nat} {later : SeekAt} {grown : List Caller} (h : CallersHold requests file order state)
    (hOccupied : ∃ system,
      Performed requests file (state.sought process fd later result place).answer
        ((state.sought process fd later result place).past grown) system ∧
      Occupied requests grown (state.sought process fd later result place) system)
    (hOnce : grown.Nodup)
    (hLast : ∀ writer, (state.point writer).locked = true → grown.getLast? = some (.writer writer))
    (hLater : later ≠ .entering)
    (hSame : ∀ other, other ≠ process → (.seeker other ∈ grown ↔ .seeker other ∈ order))
    (hOut : .seeker process ∉ grown → ∃ retval, later = .returned retval ∧
      ∀ system, System.exec (requests.op (.seeker process)) system = .ok (⟨retval, []⟩, system)) :
    CallersHold requests file grown (state.sought process fd later result place) := by
  refine ⟨hOccupied, hOnce, hLast, fun other hOther => ?_, fun other hOther => ?_⟩
  · by_cases hSelf : other = process
    · rw [hSelf, sought_seek_self]
      exact hLater
    · rw [sought_seek_of_ne hSelf]
      exact h.inside other ((hSame other hSelf).mp hOther)
  · by_cases hSelf : other = process
    · subst hSelf
      rw [sought_seek_self]
      exact .inr (hOut hOther)
    · rw [sought_seek_of_ne hSelf]
      exact h.outside other fun hMem => hOther ((hSame other hSelf).mpr hMem)

/-- A seek that never comes to the lock. -/
theorem seek_rejected (h : CallersHold requests file order state) (hEntering : state.seek process = .entering)
    (hRejected : ∀ other moved, aesdIoctl (requests.seek process) other moved = .ok (retval, other, moved)) :
    CallersHold requests file order (state.sought process (requests.fd process) (.returned retval) state.world
      (state.file (requests.fd process))) := by
  obtain ⟨system, hPerformed, hOccupied⟩ := h.occupied
  have hNew : .seeker process ∉ order := fun hMem => h.inside process hMem hEntering
  have hSame : ∀ caller, (state.sought process (requests.fd process) (.returned retval) state.world
      (state.file (requests.fd process))).locked caller = state.locked caller := by
    intro caller
    by_cases hSelf : caller = .seeker process
    · rw [hSelf, sought_locked_self, Callers.locked, hEntering]
      rfl
    · exact sought_locked_of_ne hSelf
  refine h.seek_moved ⟨system, ?_, ?_⟩ h.once h.last (by simp) (fun _ _ => Iff.rfl) fun _ => ⟨retval, rfl, ?_⟩
  · rw [past_congr fun caller _ => hSame caller]
    refine hPerformed.congr fun caller hCaller => sought_answer_of_ne ?_
    rintro rfl
    exact hNew (mem_past hCaller).1
  · cases hOccupied with
    | writers hTurns hNobody hFile =>
        exact .writers hTurns (fun other => (hSame (.seeker other)).trans (hNobody other))
          (sought_file_kept.trans hFile)
    | seeker before other hOrder hTurns hLock hPasses hInside hOthers hFile =>
        have hNe : other ≠ process := by
          rintro rfl
          rw [hEntering] at hInside
          cases hInside
        refine .seeker before other hOrder hTurns hLock hPasses ?_
          (fun third hThird => (hSame (.seeker third)).trans (hOthers third hThird)) (by rwa [sought_file_kept])
        rw [sought_file_kept, sought_seek_of_ne hNe]
        exact hInside
  · intro system
    simp only [System.exec, Requests.op, hRejected, bind, Except.bind, pure, Except.pure]
    exact congrArg Except.ok (Prod.ext rfl setFile_self)

/-- A seek takes the lock. -/
theorem seek_take (h : CallersHold requests file order state) (hEntering : state.seek process = .entering)
    (hPasses : (requests.seek process).Passes) (hLock : state.world.dev.mxLock = false) :
    CallersHold requests file (order ++ [.seeker process]) (state.sought process (requests.fd process) (.summing 0 0)
      { state.world with dev := { state.world.dev with mxLock := true } } (state.file (requests.fd process))) := by
  obtain ⟨system, hPerformed, hOccupied⟩ := h.occupied
  have hNew : .seeker process ∉ order := fun hMem => h.inside process hMem hEntering
  have hOthers : ∀ caller ∈ order, caller ≠ .seeker process := fun caller hCaller hSame => hNew (hSame ▸ hCaller)
  cases hOccupied with
  | writers hTurns hNobody hFile =>
      obtain ⟨_, _, _, _, _, hOut⟩ := hTurns.free hLock
      refine h.seek_moved ⟨system, ?_, ?_⟩ (by simpa using h.once.concat hNew) (fun writer hWriter => ?_) (by simp)
        (fun other hOther => by simp [hOther]) (fun hNot => absurd (by simp) hNot)
      · rw [past_concat (by rw [sought_locked_self]; rfl), past_congr fun caller hCaller =>
          sought_locked_of_ne (hOthers caller hCaller)]
        exact hPerformed.congr fun caller hCaller => sought_answer_of_ne (hOthers caller (mem_past hCaller).1)
      · have hView : Turns requests.write (writersOf order)
            ⟨World.unlocked { state.world with dev := { state.world.dev with mxLock := true } }, state.point⟩ := by
          rw [World.unlocked, unlock_lock hLock]
          exact hTurns
        refine .seeker order process rfl ?_ rfl hPasses ?_ (fun other hOther => ?_) fun fd _ => ?_
        · rw [writersOf_append, writersOf_seeker, List.append_nil]
          exact hView
        · rw [sought_seek_self, sought_file_kept, hFile]
          exact .summing 0 0 (Nat.zero_le _) rfl
        · rw [sought_seek_of_ne hOther]
          exact hNobody other
        · rw [sought_file_kept, hFile]
      · cases (hOut writer).symm.trans hWriter
  | seeker before other hOrder hTurns hHeld => cases hHeld.symm.trans hLock

/-- A seek gives the lock back, and is the whole operation. -/
theorem seek_unlock (h : CallersHold requests file order state) (hUnlocking : state.seek process = .unlocking retval) :
    CallersHold requests file order (state.sought process (requests.fd process) (.returned retval)
      state.world.unlocked (state.file (requests.fd process))) := by
  obtain ⟨system, hPerformed, hOccupied⟩ := h.occupied
  have hLocked : (state.seek process).locked = true := by rw [hUnlocking]; rfl
  obtain ⟨before, rfl, hTurns, hLock, hPasses, hInside, hOthers, hFile⟩ := hOccupied.seek_of_locked hLocked
  have hSystem := hPerformed
  rw [past_last h.once hLocked hOthers] at hSystem
  obtain ⟨answers, hRun⟩ := hSystem.writes
  obtain ⟨final, hTaken, hFinal, hFinalLock, hRests, hFree⟩ := hTurns.free rfl
  rw [writersOf_append, writersOf_seeker, List.append_nil] at hTaken hFinal hRests
  obtain rfl := hTaken.eq_world hRun
  have hDone : seekTo ((requests.seek process).entryAt state.world.dev.aesdCb) (requests.seek process).seekCmd
      (system.file (requests.fd process)) = (retval, state.file (requests.fd process)) := by
    rw [hUnlocking] at hInside
    cases hInside with
    | unlocking _ _ hSeek => exact hSeek
  have hAll : ∀ caller, (state.sought process (requests.fd process) (.returned retval) state.world.unlocked
      (state.file (requests.fd process))).locked caller = false := by
    intro caller
    by_cases hSelf : caller = .seeker process
    · rw [hSelf, sought_locked_self]
      rfl
    · exact (sought_locked_of_ne hSelf).trans (hOthers caller hSelf)
  refine h.seek_moved ⟨system.setFile (requests.fd process) (state.file (requests.fd process)), ?_, ?_⟩ h.once h.last
    (by simp) (fun _ _ => Iff.rfl) (by simp)
  · rw [past_unlocked fun caller _ => hAll caller]
    refine (hSystem.congr fun caller hCaller => sought_answer_of_ne ?_).concat
      (exec_sought hPasses hFinalLock hRests.ring hFinal.ring hDone) (by simp [Callers.answer])
    rintro rfl
    exact List.disjoint_of_nodup_append h.once hCaller (by simp)
  · refine .writers hTurns (fun other => hAll (.seeker other)) ?_
    rw [sought_file_kept]
    funext fd
    by_cases hFd : fd = requests.fd process
    · rw [hFd, setFile_file_self]
    · exact (hFile fd hFd).trans (if_neg hFd).symm

/-- A seek that has the lock goes on, or gives it back. -/
theorem seek_inside (h : CallersHold requests file order state) {later : SeekAt}
    (hSeek : seekStep (requests.seek process) (state.seek process) state.world (state.file (requests.fd process)) =
      .ok (later, result, place))
    (hLocked : (state.seek process).locked = true) :
    later ≠ .summing 0 0 ∧
      CallersHold requests file order (state.sought process (requests.fd process) later result place) := by
  obtain ⟨system, hPerformed, hOccupied⟩ := h.occupied
  obtain ⟨before, hOrder, hTurns, hLock, hPasses, hInside, hOthers, hFile⟩ := hOccupied.seek_of_locked hLocked
  rcases hInside.step with ⟨goes, there, hStep, hGoes, hOn, hNext⟩ | ⟨retval, hUnlocking, _⟩
  · cases hStep.symm.trans hSeek
    have hSame : ∀ caller, (state.sought process (requests.fd process) later state.world place).locked caller =
        state.locked caller := by
      intro caller
      by_cases hSelf : caller = .seeker process
      · rw [hSelf, sought_locked_self, hGoes]
        exact hLocked.symm
      · exact sought_locked_of_ne hSelf
    refine ⟨hOn, h.seek_moved ⟨system, ?_, ?_⟩ h.once h.last (fun hEntering => ?_) (fun _ _ => Iff.rfl)
      (by simp [hOrder])⟩
    · rw [past_congr fun caller _ => hSame caller]
      refine hPerformed.congr fun caller hCaller => sought_answer_of_ne ?_
      rintro rfl
      cases hLocked.symm.trans (mem_past hCaller).2
    · refine .seeker before process hOrder hTurns hLock hPasses ?_ (fun other hOther => ?_) fun fd hFd => ?_
      · rw [sought_seek_self, sought_file_self]
        exact hNext
      · exact (hSame (.seeker other)).trans (hOthers (.seeker other) (by simpa using hOther))
      · exact (Function.update_of_ne hFd _ _).trans (hFile fd hFd)
    · rw [hEntering] at hGoes
      cases hGoes
  · rw [hUnlocking] at hSeek
    cases hSeek
    exact ⟨by simp, h.seek_unlock hUnlocking⟩

/-- Every step of a caller keeps the order. -/
theorem step (h : CallersHold requests file order state) (hStep : callers requests caller state = .ok (reply, next)) :
    CallersHold requests file
      (if reply = .write .filling ∨ reply = .seek (.summing 0 0) then order ++ [caller] else order) next := by
  cases caller with
  | writer process =>
      simp only [callers] at hStep
      split at hStep
      · cases hStep
      · next after result hWrite =>
        cases hStep
        cases hLocked : (state.point process).locked with
        | true =>
            obtain ⟨hFilling, hNext⟩ := h.write_inside hWrite hLocked
            rw [if_neg (by simpa using hFilling)]
            exact hNext
        | false =>
            by_cases hTake : after = .filling
            · subst hTake
              rw [if_pos (.inl rfl)]
              exact h.write_take hWrite hLocked
            · rw [if_neg (by simpa using hTake)]
              exact h.write_outside hWrite hLocked hTake
  | seeker process =>
      simp only [callers] at hStep
      split at hStep
      · cases hStep
      · next later result place hSeek =>
        cases hStep
        cases hLocked : (state.seek process).locked with
        | true =>
            obtain ⟨hOn, hNext⟩ := h.seek_inside hSeek hLocked
            rw [if_neg (by simpa using hOn)]
            exact hNext
        | false =>
            cases hPoint : state.seek process with
            | entering =>
                rw [hPoint] at hSeek
                obtain ⟨rfl, ⟨retval, rfl, rfl, hRejected⟩ | ⟨rfl, hPasses, hLock, rfl⟩⟩ := seekStep_entering hSeek
                · rw [if_neg (by simp)]
                  exact h.seek_rejected hPoint hRejected
                · rw [if_pos (.inr rfl)]
                  exact h.seek_take hPoint hPasses hLock
            | returned retval =>
                rw [hPoint] at hSeek
                cases hSeek
            | _ => simp [hPoint, SeekAt.locked] at hLocked

end CallersHold

theorem callersHold_initial : CallersHold requests file [] (.initial file) where
  occupied := ⟨⟨World.initial, file⟩, ⟨[], rfl, rfl⟩, .writers turns_initial (fun _ => rfl) rfl⟩
  once := List.nodup_nil
  last := fun _ hLocked => by cases hLocked
  inside := by simp
  outside := fun _ _ => .inl rfl

/-- Every interleaving of the callers keeps the order. -/
theorem run_callers {schedule : List Caller} {trace : List (Caller × CallerAt)}
    (hRun : run (callers requests) schedule (.initial file) = .ok (trace, state)) :
    CallersHold requests file (callerOrder trace) state := by
  refine run_induct (fun history state => CallersHold requests file (callerOrder history) state) ?_ []
    callersHold_initial along_true hRun
  intro history state caller reply next h hStep _
  rw [callerOrder_concat]
  exact h.step hStep

end Aesd
