import Aesd.Driver.Runs

/-! The device as a log of commands. Writes that get the lock and their
memory are the steps of an abstract log, whatever part of each arrives. -/
namespace Aesd
open Kernel Word Memory Execution CommandLog

/-- The call has a buffer, gets the lock and gets its memory. -/
structure WriteCall.Served (call : WriteCall) : Prop where
  buf : call.buf ≠ none
  lock : call.interrupted = false
  memory : call.granted = true

/-- The bytes that arrive. -/
def WriteCall.accepted (call : WriteCall) : List Byte := (call.buf.getD []).take call.copied

/-- Nothing of the buffer is missing after the copy. -/
def WriteCall.Whole (call : WriteCall) : Prop := (call.buf.getD []).length ≤ call.copied

/-- A write of a whole string in which nothing goes wrong. -/
def wholeWrite (bytes : List Byte) : WriteCall := ⟨some bytes, false, true, bytes.length, fun _ => 0⟩

def writeLog (calls : List WriteCall) : WriteLog := Log.empty.acceptAll (calls.map WriteCall.accepted)

variable {world next left right : World} {log : WriteLog} {call : WriteCall} {calls : List WriteCall}
  {commands : List (List Byte)}

theorem WriteCall.accepted_of_whole (h : call.Whole) : call.accepted = call.buf.getD [] :=
  List.take_of_length_le h

theorem wholeWrite_served (bytes : List Byte) : (wholeWrite bytes).Served :=
  ⟨Option.some_ne_none bytes, rfl, rfl⟩

theorem wholeWrite_whole (bytes : List Byte) : (wholeWrite bytes).Whole := Nat.le_refl bytes.length

theorem aesdWrite_accepts (h : Represents world log) (hLock : world.dev.mxLock = false)
    (hServed : call.Served) :
    ∃ next, aesdWrite call world = .ok (call.accepted.length, next) ∧
      Represents next (log.accept call.accepted) ∧ next.dev.mxLock = false := by
  obtain ⟨buf, hBuf⟩ := Option.ne_none_iff_exists'.mp hServed.buf
  have hAccepted : call.accepted = buf.take call.copied := by
    rw [WriteCall.accepted, hBuf, Option.getD_some]
  rw [hAccepted]
  exact aesdWrite_served h hBuf hServed.lock hLock (Or.inl hServed.memory)

/-- A run of served writes completes, and is the log of what arrived. -/
theorem served_run (hServed : ∀ call ∈ calls, call.Served) :
    ∃ trace world, run aesdWrite calls World.initial = .ok (trace, world) ∧
      Represents world (writeLog calls) ∧ world.dev.mxLock = false ∧
      trace.map Prod.snd = calls.map fun call => (call.accepted.length : Int) := by
  obtain ⟨trace, world, hRun, hRepresents, hLock, hReplies⟩ :=
    run_total
      (fun (history : List (WriteCall × Int)) world =>
        Represents world (writeLog (history.map Prod.fst)) ∧ world.dev.mxLock = false ∧
          history.map Prod.snd = history.map fun event => (event.1.accepted.length : Int))
      WriteCall.Served
      (fun history world call hCall ⟨hRepresents, hLock, hReplies⟩ => by
        obtain ⟨next, hWrite, hNext, hUnlocked⟩ := aesdWrite_accepts hRepresents hLock hCall
        refine ⟨_, next, hWrite, ?_, hUnlocked, ?_⟩
        · simpa [writeLog, Log.acceptAll] using hNext
        · simp [hReplies])
      [] ⟨represents_initial, rfl, rfl⟩ hServed
  have hActions := trace_actions hRun
  rw [List.nil_append] at hRepresents hReplies
  refine ⟨trace, world, hRun, hActions ▸ hRepresents, hLock, ?_⟩
  rw [hReplies, ← hActions, List.map_map]
  rfl

/-- After any run of served writes the ring has the last ten commands, the
temporary buffer the pending bytes, and together all accepted bytes are there. -/
theorem write_log_refinement (calls : List WriteCall) (hServed : ∀ call ∈ calls, call.Served) :
    ∃ trace world, run aesdWrite calls World.initial = .ok (trace, world) ∧
      world.stored = ((writeLog calls).commands.rtake aesdcharMaxWriteOperationsSupported).map .ok ∧
      world.pending = .ok (writeLog calls).pending ∧
      newline ∉ (writeLog calls).pending ∧
      (writeLog calls).commands.flatten ++ (writeLog calls).pending =
        (calls.map WriteCall.accepted).flatten ∧
      trace.map Prod.snd = calls.map fun call => (call.accepted.length : Int) := by
  obtain ⟨trace, world, hRun, hRepresents, hLock, hReplies⟩ := served_run hServed
  have hContents : (writeLog calls).contents =
      (Log.empty : WriteLog).contents ++ (calls.map WriteCall.accepted).flatten :=
    Log.contents_acceptAll
  exact ⟨trace, world, hRun, hRepresents.ring.stored, (hRepresents.tmp hLock).pending,
    (writeLog calls).unfinished, hContents, hReplies⟩

theorem write_log_refinement_split :
    ∃ trace world, run aesdWrite [wholeWrite [97], wholeWrite [98, newline, 99]] World.initial =
        .ok (trace, world) ∧
      world.stored = [.ok [97, 98, newline, 99]] ∧ world.pending = .ok [] := by
  obtain ⟨trace, world, hRun, hStored, hPending, _⟩ :=
    write_log_refinement [wholeWrite [97], wholeWrite [98, newline, 99]] (by
      intro call hCall
      rcases List.mem_pair.mp hCall with rfl | rfl
      · exact wholeWrite_served _
      · exact wholeWrite_served _)
  exact ⟨trace, world, hRun, hStored, hPending⟩

/-- The slots that hold one list of commands have the same bytes on every
device, whatever allocations these are in. -/
theorem RingHolds.slot_bytes_eq (hLeft : RingHolds left commands) (hRight : RingHolds right commands)
    (index : Nat) :
    (left.dev.aesdCb.slot index).bytes left.heap = (right.dev.aesdCb.slot index).bytes right.heap := by
  by_cases hVacant : aesdcharMaxWriteOperationsSupported ≤ index ∨ commands.length ≤ index
  · rw [hLeft.vacant hVacant, hRight.vacant hVacant]
    rfl
  · obtain ⟨hIndex, hWritten⟩ := not_or.mp hVacant
    obtain ⟨number, hNumber, hNear, rfl⟩ :=
      Ring.number_of_slot (Nat.lt_of_not_le hIndex) (Nat.lt_of_not_le hWritten)
    have hLeftBytes := hLeft.held number (by simpa using hNumber) (by simpa using hNear)
    have hRightBytes := hRight.held number (by simpa using hNumber) (by simpa using hNear)
    exact hLeftBytes.trans hRightBytes.symm

/-- Two devices store the same commands in the same slots and have the same
bytes pending; and the stored commands are lines. -/
structure SameLines (left right : World) : Prop where
  stored : left.stored = right.stored
  slots : ∀ index, (left.dev.aesdCb.slot index).bytes left.heap =
    (right.dev.aesdCb.slot index).bytes right.heap
  pending : left.pending = right.pending
  lines : ∀ command ∈ left.stored, ∃ bytes, command = .ok bytes ∧ Log.Terminated newline bytes

theorem Represents.sameLines (hLeft : Represents left log) (hRight : Represents right log)
    (hLeftLock : left.dev.mxLock = false) (hRightLock : right.dev.mxLock = false)
    (hLines : ∀ command ∈ log.commands, Log.Terminated newline command) : SameLines left right where
  stored := hLeft.ring.stored.trans hRight.ring.stored.symm
  slots := hLeft.ring.slot_bytes_eq hRight.ring
  pending := (hLeft.tmp hLeftLock).pending.trans (hRight.tmp hRightLock).pending.symm
  lines := by
    intro command hCommand
    rw [hLeft.ring.stored] at hCommand
    obtain ⟨bytes, hBytes, rfl⟩ := List.mem_map.mp hCommand
    exact ⟨bytes, rfl, hLines bytes (List.mem_of_mem_drop hBytes)⟩

/-- Writes of a whole string with its newline, if any, at the end. -/
structure WriteCall.Line (call : WriteCall) : Prop where
  served : call.Served
  whole : call.Whole
  closes : Log.Closes newline (call.buf.getD [])

theorem accepted_of_lines (h : ∀ call ∈ calls, call.Line) :
    calls.map WriteCall.accepted = calls.map fun call => call.buf.getD [] :=
  List.map_congr_left fun call hCall => WriteCall.accepted_of_whole (h call hCall).whole

/-- How lines are cut into writes is not visible afterwards, as long as no
write goes on after its newline. -/
theorem sameLines_of_flatten_eq (first second : List WriteCall)
    (hFirst : ∀ call ∈ first, call.Line) (hSecond : ∀ call ∈ second, call.Line)
    (hFlatten : (first.map fun call => call.buf.getD []).flatten =
      (second.map fun call => call.buf.getD []).flatten) :
    ∃ firstTrace firstEnd secondTrace secondEnd,
      run aesdWrite first World.initial = .ok (firstTrace, firstEnd) ∧
      run aesdWrite second World.initial = .ok (secondTrace, secondEnd) ∧
      SameLines firstEnd secondEnd := by
  have hPieces : ∀ {calls : List WriteCall}, (∀ call ∈ calls, call.Line) →
      ∀ piece ∈ calls.map (fun call => call.buf.getD []), Log.Closes newline piece := by
    intro calls h piece hPiece
    obtain ⟨call, hCall, rfl⟩ := List.mem_map.mp hPiece
    exact (h call hCall).closes
  have hLog : writeLog first = writeLog second := by
    rw [writeLog, writeLog, accepted_of_lines hFirst, accepted_of_lines hSecond]
    exact Log.acceptAll_eq_of_flatten (hPieces hFirst) (hPieces hSecond) hFlatten
  have hLines : ∀ command ∈ (writeLog first).commands, Log.Terminated newline command := by
    rw [writeLog, accepted_of_lines hFirst]
    exact Log.acceptAll_terminated (hPieces hFirst) (by simp [Log.empty])
  obtain ⟨firstTrace, firstEnd, hFirstRun, hFirstLog, hFirstLock, _⟩ :=
    served_run fun call hCall => (hFirst call hCall).served
  obtain ⟨secondTrace, secondEnd, hSecondRun, hSecondLog, hSecondLock, _⟩ :=
    served_run fun call hCall => (hSecond call hCall).served
  rw [← hLog] at hSecondLog
  exact ⟨firstTrace, firstEnd, secondTrace, secondEnd, hFirstRun, hSecondRun,
    hFirstLog.sameLines hSecondLog hFirstLock hSecondLock hLines⟩

theorem sameLines_split_line :
    ∃ firstTrace firstEnd secondTrace secondEnd,
      run aesdWrite [wholeWrite [97, 98, newline]] World.initial = .ok (firstTrace, firstEnd) ∧
      run aesdWrite [wholeWrite [97], wholeWrite [98, newline]] World.initial = .ok (secondTrace, secondEnd) ∧
      SameLines firstEnd secondEnd := by
  refine sameLines_of_flatten_eq _ _ ?_ ?_ rfl
  · intro call hCall
    rw [List.mem_singleton.mp hCall]
    exact ⟨wholeWrite_served _, wholeWrite_whole _, by decide⟩
  · intro call hCall
    rcases List.mem_pair.mp hCall with rfl | rfl
    · exact ⟨wholeWrite_served _, wholeWrite_whole _, by decide⟩
    · exact ⟨wholeWrite_served _, wholeWrite_whole _, by decide⟩

def storedAfter (calls : List WriteCall) : Except Stop (List (Except Stop (List Byte))) :=
  (run aesdWrite calls World.initial).map fun result => result.2.stored

/-- Two lines in one write are one command, in two writes they are two. -/
theorem not_sameLines_of_flatten_eq :
    ¬ ∀ first second : List WriteCall,
      (∀ call ∈ first, call.Served ∧ call.Whole) → (∀ call ∈ second, call.Served ∧ call.Whole) →
      (first.map fun call => call.buf.getD []).flatten =
        (second.map fun call => call.buf.getD []).flatten →
      ∃ firstTrace firstEnd secondTrace secondEnd,
        run aesdWrite first World.initial = .ok (firstTrace, firstEnd) ∧
        run aesdWrite second World.initial = .ok (secondTrace, secondEnd) ∧
        SameLines firstEnd secondEnd := by
  intro hClaim
  have hWhole : ∀ lines : List (List Byte), ∀ call ∈ lines.map wholeWrite, call.Served ∧ call.Whole := by
    intro lines call hCall
    obtain ⟨bytes, _, rfl⟩ := List.mem_map.mp hCall
    exact ⟨wholeWrite_served bytes, wholeWrite_whole bytes⟩
  obtain ⟨_, firstEnd, _, secondEnd, hFirst, hSecond, hSame⟩ :=
    hClaim ([[97, newline, 98, newline]].map wholeWrite) ([[97, newline], [98, newline]].map wholeWrite)
      (hWhole _) (hWhole _) rfl
  have hFirstStored : storedAfter ([[97, newline, 98, newline]].map wholeWrite) = .ok firstEnd.stored := by
    rw [storedAfter, hFirst]
    rfl
  have hSecondStored : storedAfter ([[97, newline], [98, newline]].map wholeWrite) =
      .ok secondEnd.stored := by
    rw [storedAfter, hSecond]
    rfl
  have hDiffer : storedAfter ([[97, newline, 98, newline]].map wholeWrite) ≠
      storedAfter ([[97, newline], [98, newline]].map wholeWrite) := by decide
  rw [hFirstStored, hSecondStored, hSame.stored] at hDiffer
  exact hDiffer rfl

end Aesd
