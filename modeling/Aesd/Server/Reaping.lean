import Aesd.Server.ThreadRecords

/-! How the thread records come and go over a run of the accept loop. A record
is joined, taken out of the list and freed once, after its thread has set
`isDone`; and the list is at no `accept` longer than the number of threads
that once were unfinished together. -/
namespace Aesd
open Memory Execution Linked

abbrev LoopTrace := List (LoopAction × LoopEvent)

/-- The threads whose handler has not set `isDone`. -/
def AcceptLoop.unfinished (state : AcceptLoop) : List Nat :=
  (List.range state.accepted).filter fun thread => state.handler thread = .running

/-- The records of the accepted threads, in order. -/
def madeRecords (trace : LoopTrace) : List Nat :=
  trace.filterMap fun entry => match entry.2 with
    | .accepted _ record _ => some record
    | _ => none

/-- The records that were joined, taken out and freed, in order. -/
def reapedRecords (trace : LoopTrace) : List Nat :=
  trace.filterMap fun entry => match entry.2 with
    | .joined _ record => some record
    | _ => none

def LoopAction.accepts : LoopAction → Bool
  | .accept _ _ => true
  | _ => false

def LoopAction.joins : LoopAction → Bool
  | .join => true
  | _ => false

/-- Each `accept` of the run made a record, for its own thread, and each join
reaped one. -/
structure RecordsCounted (trace : LoopTrace) (state : AcceptLoop) : Prop where
  accepts : (trace.map Prod.fst).countP LoopAction.accepts = state.accepted
  made : madeRecords trace = (List.range state.accepted).map state.params
  joins : (reapedRecords trace).length = (trace.map Prod.fst).countP LoopAction.joins

/-- The server was in this state at one time of the run. -/
def ReachedIn (trace : LoopTrace) (earlier : AcceptLoop) : Prop :=
  ∃ prior, prior <+: trace ∧ run AcceptLoop.step (prior.map Prod.fst) .initial = .ok (prior, earlier)

/-- What the events of a run say about where it ended. -/
structure LoopHistory (trace : LoopTrace) (state : AcceptLoop) : Prop where
  run : run AcceptLoop.step (trace.map Prod.fst) .initial = .ok (trace, state)
  made : ∀ thread record, (∃ fd, .accepted thread record fd ∈ trace.map Prod.snd) ↔
    state.handler thread ≠ .absent ∧ state.params thread = record
  reaped : ∀ thread record, .joined thread record ∈ trace.map Prod.snd ↔
    state.handler thread = .joined ∧ state.params thread = record
  finished : ∀ thread, state.handler thread ≠ .absent → state.handler thread ≠ .running →
    .setDone thread ∈ trace.map Prod.fst
  once : (reapedRecords trace).Nodup

/-- How long the list is beside the most threads that were unfinished at one
time. While a scan passes records, their threads were all unfinished when it
began. -/
structure PeakHolds (trace : LoopTrace) (state : AcceptLoop) (scanned rest : List Nat) : Prop where
  accepting : state.main = .accepting → ∃ earlier, ReachedIn trace earlier ∧
    (scanned ++ rest).length ≤ earlier.unfinished.length
  inside : state.main ≠ .accepting → ∃ earlier, ReachedIn trace earlier ∧
    (scanned ++ rest).length ≤ earlier.unfinished.length + 1
  testing : state.main = .testing → ∃ earlier, ReachedIn trace earlier ∧
    state.unfinished ⊆ earlier.unfinished ∧ scanned ⊆ earlier.unfinished.map state.params

variable {state next : AcceptLoop} {scanned rest : List Nat} {thread record fd : Nat}
  {heap : Heap ListDataDef} {action : LoopAction} {event : LoopEvent} {actions : List LoopAction}
  {trace : LoopTrace}

theorem mem_madeRecords : record ∈ madeRecords trace ↔
    ∃ thread fd, .accepted thread record fd ∈ trace.map Prod.snd := by
  simp only [madeRecords, List.mem_filterMap, List.mem_map]
  constructor
  · rintro ⟨entry, hEntry, hRecord⟩
    split at hRecord
    · next thread made fd hEvent =>
      cases hRecord
      exact ⟨thread, fd, entry, hEntry, hEvent⟩
    · cases hRecord
  · rintro ⟨thread, fd, entry, hEntry, hEvent⟩
    exact ⟨entry, hEntry, by simp [hEvent]⟩

theorem mem_reapedRecords : record ∈ reapedRecords trace ↔
    ∃ thread, .joined thread record ∈ trace.map Prod.snd := by
  simp only [reapedRecords, List.mem_filterMap, List.mem_map]
  constructor
  · rintro ⟨entry, hEntry, hRecord⟩
    split at hRecord
    · next thread reaped hEvent =>
      cases hRecord
      exact ⟨thread, entry, hEntry, hEvent⟩
    · cases hRecord
  · rintro ⟨thread, entry, hEntry, hEvent⟩
    exact ⟨entry, hEntry, by simp [hEvent]⟩

theorem mem_unfinished : thread ∈ state.unfinished ↔
    thread < state.accepted ∧ state.handler thread = .running := by
  simp [AcceptLoop.unfinished]

theorem ReachedIn.mono {earlier : AcceptLoop} {entry : LoopAction × LoopEvent} (h : ReachedIn trace earlier) :
    ReachedIn (trace ++ [entry]) earlier := by
  obtain ⟨prior, hPrefix, hRun⟩ := h
  exact ⟨prior, hPrefix.trans (List.prefix_append trace _), hRun⟩

theorem mem_events_concat {other : LoopEvent} :
    other ∈ (trace ++ [(action, event)]).map Prod.snd ↔ other ∈ trace.map Prod.snd ∨ other = event := by
  rw [List.map_append, List.mem_append, List.map_singleton, List.mem_singleton]

namespace LoopHistory

theorem reached (h : LoopHistory trace state) : ReachedIn trace state :=
  ⟨trace, List.prefix_refl trace, h.run⟩

theorem next_run (h : LoopHistory trace state) (hStep : AcceptLoop.step action state = .ok (event, next)) :
    Execution.run AcceptLoop.step ((trace ++ [(action, event)]).map Prod.fst) .initial =
      .ok (trace ++ [(action, event)], next) := by
  rw [List.map_append]
  exact run_concat_of_ok h.run hStep

/-- A step that neither makes a record nor takes one out. -/
theorem quiet (h : LoopHistory trace state) (hStep : AcceptLoop.step action state = .ok (event, next))
    (hEvent : event = .none ∨ ∃ thread fd, event = .transferred thread fd)
    (hParams : next.params = state.params)
    (hAbsent : ∀ thread, next.handler thread = .absent ↔ state.handler thread = .absent)
    (hJoined : ∀ thread, next.handler thread = .joined ↔ state.handler thread = .joined)
    (hFinished : ∀ thread, next.handler thread ≠ .running →
      state.handler thread ≠ .running ∨ action = .setDone thread) :
    LoopHistory (trace ++ [(action, event)]) next := by
  have hNotAccepted : ∀ thread record fd, LoopEvent.accepted thread record fd ≠ event := by
    rintro thread record fd rfl
    simp at hEvent
  have hNotJoined : ∀ thread record, LoopEvent.joined thread record ≠ event := by
    rintro thread record rfl
    simp at hEvent
  refine ⟨h.next_run hStep, fun thread record => ?_, fun thread record => ?_, fun thread hSome hDone => ?_, ?_⟩
  · simp only [mem_events_concat, hNotAccepted, or_false, h.made, hParams, ne_eq, hAbsent]
  · simp only [mem_events_concat, hNotJoined, or_false, h.reaped, hParams, hJoined]
  · rw [List.map_append, List.mem_append]
    rcases hFinished thread hDone with hEarlier | hNow
    · exact .inl (h.finished thread (fun hNone => hSome ((hAbsent thread).mpr hNone)) hEarlier)
    · exact .inr (by simp [hNow])
  · have hSame : reapedRecords (trace ++ [(action, event)]) = reapedRecords trace := by
      rcases hEvent with rfl | ⟨thread, fd, rfl⟩
      · simp [reapedRecords]
      · simp [reapedRecords]
    rw [hSame]
    exact h.once

/-- A step that leaves the handlers where they are. -/
theorem still (h : LoopHistory trace state) (hStep : AcceptLoop.step action state = .ok (event, next))
    (hEvent : event = .none ∨ ∃ thread fd, event = .transferred thread fd)
    (hParams : next.params = state.params) (hHandler : next.handler = state.handler) :
    LoopHistory (trace ++ [(action, event)]) next := by
  refine h.quiet hStep hEvent hParams (fun thread => ?_) (fun thread => ?_) fun thread => ?_
  · rw [hHandler]
  · rw [hHandler]
  · rw [hHandler]
    exact Or.inl

/-- A handler comes to its next phase. -/
theorem moved {phase : HandlerAt} (h : LoopHistory trace state)
    (hStep : AcceptLoop.step action state = .ok (.none, state.moved heap thread phase))
    (hListed : (state.handler thread).Listed) (hPhase : phase.Listed)
    (hFinished : state.handler thread ≠ .running ∨ action = .setDone thread) :
    LoopHistory (trace ++ [(action, .none)]) (state.moved heap thread phase) := by
  refine h.quiet hStep (.inl rfl) rfl (fun other => ?_) (fun other => ?_) fun other hOther => ?_
  · by_cases hSame : other = thread
    · simp [hSame, hListed.1, hPhase.1]
    · simp only [Function.update_of_ne hSame]
  · by_cases hSame : other = thread
    · simp [hSame, hListed.2, hPhase.2]
    · simp only [Function.update_of_ne hSame]
  · by_cases hSame : other = thread
    · rw [hSame]
      exact hFinished
    · exact .inl (by simpa only [Function.update_of_ne hSame] using hOther)

theorem inserted {descriptors : Descriptors} (h : LoopHistory trace state) (hHolds : LoopHolds state scanned rest)
    (hStep : AcceptLoop.step action state =
      .ok (.accepted state.accepted state.heap.next fd, state.inserted heap descriptors)) :
    LoopHistory (trace ++ [(action, .accepted state.accepted state.heap.next fd)])
      (state.inserted heap descriptors) := by
  have hAbsent : state.handler state.accepted = .absent := (hHolds.absent _).mpr (Nat.le_refl _)
  refine ⟨h.next_run hStep, fun thread record => ?_, fun thread record => ?_, fun thread hSome hDone => ?_, ?_⟩
  · simp only [mem_events_concat, exists_or, h.made]
    by_cases hSame : thread = state.accepted
    · simp [hSame, hAbsent, eq_comm]
    · simp [hSame]
  · simp only [mem_events_concat, h.reaped, reduceCtorEq, or_false]
    by_cases hSame : thread = state.accepted
    · simp [hSame, hAbsent]
    · simp [hSame]
  · by_cases hSame : thread = state.accepted
    · simp [hSame] at hDone
    · simp only [Function.update_of_ne hSame] at hSome hDone
      rw [List.map_append, List.mem_append]
      exact .inl (h.finished thread hSome hDone)
  · have hSame : reapedRecords (trace ++ [(action, .accepted state.accepted state.heap.next fd)]) =
        reapedRecords trace := by simp [reapedRecords]
    rw [hSame]
    exact h.once

theorem joined {head : Option Nat} (h : LoopHistory trace state) (hHolds : LoopHolds state scanned rest)
    (hReturned : state.handler thread = .returned)
    (hStep : AcceptLoop.step action state =
      .ok (.joined thread (state.params thread), state.reaped heap head thread)) :
    LoopHistory (trace ++ [(action, .joined thread (state.params thread))]) (state.reaped heap head thread) := by
  refine ⟨h.next_run hStep, fun other record => ?_, fun other record => ?_, fun other hSome hDone => ?_, ?_⟩
  · simp only [mem_events_concat, reduceCtorEq, or_false, h.made]
    by_cases hSame : other = thread
    · simp [hSame, hReturned]
    · simp [hSame]
  · simp only [mem_events_concat, h.reaped]
    by_cases hSame : other = thread
    · simp [hSame, hReturned, eq_comm]
    · simp [hSame]
  · rw [List.map_append, List.mem_append]
    by_cases hSame : other = thread
    · exact .inl (h.finished other (by simp [hSame, hReturned]) (by simp [hSame, hReturned]))
    · simp only [Function.update_of_ne hSame] at hSome hDone
      exact .inl (h.finished other hSome hDone)
  · have hNew : state.params thread ∉ reapedRecords trace := by
      rw [mem_reapedRecords]
      rintro ⟨other, hOther⟩
      obtain ⟨hJoined, hParams⟩ := (h.reaped other _).mp hOther
      have hSame := hHolds.injective other thread (by simp [hJoined]) (by simp [hReturned]) hParams
      rw [hSame, hReturned] at hJoined
      cases hJoined
    have hConcat : reapedRecords (trace ++ [(action, .joined thread (state.params thread))]) =
        reapedRecords trace ++ [state.params thread] := by simp [reapedRecords]
    rw [hConcat, List.nodup_append]
    refine ⟨h.once, List.nodup_singleton _, fun record hRecord other hOther hSame => hNew ?_⟩
    rw [List.mem_singleton] at hOther
    rw [← hOther, ← hSame]
    exact hRecord

end LoopHistory

namespace PeakHolds

/-- The new thread is unfinished, and so are all that a scan from here on will
find to be. -/
theorem inserted {descriptors : Descriptors} (h : PeakHolds trace state scanned rest)
    (hMain : state.main = .accepting)
    (hHistory : LoopHistory (trace ++ [(action, event)]) (state.inserted heap descriptors)) :
    PeakHolds (trace ++ [(action, event)]) (state.inserted heap descriptors) []
      (state.heap.next :: (scanned ++ rest)) := by
  obtain ⟨earlier, hReached, hLength⟩ := h.accepting hMain
  refine ⟨fun hAccepting => (by cases hAccepting), fun _ => ⟨earlier, hReached.mono, ?_⟩, fun _ => ?_⟩
  · simpa using hLength
  · exact ⟨_, hHistory.reached, List.Subset.refl _, List.nil_subset _⟩

/-- Where the scan ends, every thread of the list was unfinished when it
began. -/
theorem ended (h : PeakHolds trace state scanned []) (hMain : state.main = .testing)
    (hNodup : scanned.Nodup) :
    PeakHolds (trace ++ [(action, event)]) { state with main := .accepting } scanned [] := by
  obtain ⟨earlier, hReached, _, hScanned⟩ := h.testing hMain
  refine ⟨fun _ => ⟨earlier, hReached.mono, ?_⟩, fun hNot => absurd rfl hNot, fun hTesting => by cases hTesting⟩
  have hLength := hNodup.length_le_of_subset hScanned
  rw [List.length_map] at hLength
  rwa [List.append_nil]

theorem found (h : PeakHolds trace state scanned rest) (hMain : state.main = .testing) :
    PeakHolds (trace ++ [(action, event)]) { state with main := .joining } scanned rest := by
  obtain ⟨earlier, hReached, hLength⟩ := h.inside (by simp [hMain])
  exact ⟨fun hAccepting => (by cases hAccepting), fun _ => ⟨earlier, hReached.mono, hLength⟩,
    fun hTesting => by cases hTesting⟩

/-- A record that the scan passes is that of a thread that still runs. -/
theorem passed {behind : List Nat} {dataPointer : Option Nat}
    (h : PeakHolds trace state scanned (state.params thread :: behind)) (hMain : state.main = .testing)
    (hThread : thread ∈ state.unfinished) :
    PeakHolds (trace ++ [(action, event)]) { state with dataPointer }
      (scanned ++ [state.params thread]) behind := by
  obtain ⟨earlier, hReached, hLength⟩ := h.inside (by simp [hMain])
  obtain ⟨start, hStart, hUnfinished, hScanned⟩ := h.testing hMain
  refine ⟨fun hAccepting => (by cases hMain.symm.trans hAccepting), fun _ => ⟨earlier, hReached.mono, ?_⟩,
    fun _ => ⟨start, hStart.mono, hUnfinished, ?_⟩⟩
  · simpa using hLength
  · refine List.append_subset.mpr ⟨hScanned, List.cons_subset.mpr ⟨?_, List.nil_subset _⟩⟩
    exact List.mem_map_of_mem (hUnfinished hThread)

/-- The one record that was too many is gone. -/
theorem joined {head : Option Nat} (h : PeakHolds trace state scanned rest) (hMain : state.main = .joining)
    (hRecord : record ∈ scanned ++ rest) :
    PeakHolds (trace ++ [(action, event)]) (state.reaped heap head thread)
      ((scanned ++ rest).erase record) [] := by
  obtain ⟨earlier, hReached, hLength⟩ := h.inside (by simp [hMain])
  refine ⟨fun _ => ⟨earlier, hReached.mono, ?_⟩, fun hNot => absurd rfl hNot, fun hTesting => by cases hTesting⟩
  rw [List.append_nil, List.length_erase_of_mem hRecord]
  omega

theorem mono (h : PeakHolds trace state scanned rest) :
    PeakHolds (trace ++ [(action, event)]) state scanned rest where
  accepting hMain := by
    obtain ⟨earlier, hReached, hLength⟩ := h.accepting hMain
    exact ⟨earlier, hReached.mono, hLength⟩
  inside hMain := by
    obtain ⟨earlier, hReached, hLength⟩ := h.inside hMain
    exact ⟨earlier, hReached.mono, hLength⟩
  testing hMain := by
    obtain ⟨start, hReached, hFacts⟩ := h.testing hMain
    exact ⟨start, hReached.mono, hFacts⟩

theorem moved {phase : HandlerAt} (h : PeakHolds trace state scanned rest) (hPhase : phase ≠ .running) :
    PeakHolds (trace ++ [(action, event)]) (state.moved heap thread phase) scanned rest := by
  have hFewer : (state.moved heap thread phase).unfinished ⊆ state.unfinished := by
    intro other hOther
    rw [mem_unfinished] at hOther ⊢
    obtain ⟨hAccepted, hRunning⟩ := hOther
    by_cases hSame : other = thread
    · rw [hSame] at hRunning
      exact absurd (by simpa using hRunning) hPhase
    · exact ⟨hAccepted, by simpa only [Function.update_of_ne hSame] using hRunning⟩
  refine ⟨h.mono.accepting, h.mono.inside, fun hMain => ?_⟩
  obtain ⟨start, hReached, hUnfinished, hScanned⟩ := h.mono.testing hMain
  exact ⟨start, hReached, List.Subset.trans hFewer hUnfinished, hScanned⟩

end PeakHolds

/-- A step keeps what is known of the list, the events and the peak. -/
theorem loop_step (hHolds : LoopHolds state scanned rest) (hHistory : LoopHistory trace state)
    (hPeak : PeakHolds trace state scanned rest)
    (hStep : AcceptLoop.step action state = .ok (event, next)) :
    ∃ passed ahead, LoopHolds next passed ahead ∧ LoopHistory (trace ++ [(action, event)]) next ∧
      PeakHolds (trace ++ [(action, event)]) next passed ahead := by
  have hOutcome := step_outcome hHolds action
  rw [hStep] at hOutcome
  cases hOutcome with
  | accepted fd junk heap descriptors hMain _ hAfter =>
      have hNext := hHistory.inserted hHolds hStep
      exact ⟨_, _, hAfter, hNext, hPeak.inserted hMain hNext⟩
  | ended hMain hRest hAfter =>
      subst hRest
      have hNodup := hHolds.chain.nodup
      rw [List.append_nil] at hNodup
      exact ⟨_, _, hAfter, hHistory.still hStep (.inl rfl) rfl rfl, hPeak.ended hMain hNodup⟩
  | found hMain hAfter =>
      exact ⟨_, _, hAfter, hHistory.still hStep (.inl rfl) rfl rfl, hPeak.found hMain⟩
  | passed thread behind dataPointer hMain hRest hRunning hAfter =>
      subst hRest
      have hListed : (state.handler thread).Listed := by simp [HandlerAt.Listed, hRunning]
      have hThread := mem_unfinished.mpr ⟨hHolds.listed_lt hListed, hRunning⟩
      exact ⟨_, _, hAfter, hHistory.still hStep (.inl rfl) rfl rfl, hPeak.passed hMain hThread⟩
  | joined thread heap head hMain hReturned hAfter =>
      have hListed : (state.handler thread).Listed := by simp [HandlerAt.Listed, hReturned]
      exact ⟨_, _, hAfter, hHistory.joined hHolds hReturned hStep,
        hPeak.joined hMain (hHolds.mem_of_listed hListed)⟩
  | transferred thread fd =>
      exact ⟨_, _, hHolds, hHistory.still hStep (.inr ⟨thread, fd, rfl⟩) rfl rfl, hPeak.mono⟩
  | done thread heap hRunning hAfter =>
      exact ⟨_, _, hAfter, hHistory.moved hStep (by simp [HandlerAt.Listed, hRunning])
        (by simp [HandlerAt.Listed]) (.inr rfl), hPeak.moved (by simp)⟩
  | exited thread hDone hAfter =>
      exact ⟨_, _, hAfter, hHistory.moved hStep (by simp [HandlerAt.Listed, hDone])
        (by simp [HandlerAt.Listed]) (.inl (by simp [hDone])), hPeak.moved (by simp)⟩

theorem initial_holds : LoopHolds .initial [] [] := by
  refine ⟨rfl, fun record => ?_, fun thread => ?_, fun thread hListed => absurd rfl hListed.1,
    fun thread hSome => absurd rfl hSome, fun thread other hSome => absurd rfl hSome,
    fun thread hJoined => (by cases hJoined), fun hMain => (by cases hMain), fun hMain => by cases hMain⟩
  · simp [AcceptLoop.initial, HandlerAt.Listed]
  · simp [AcceptLoop.initial]

theorem initial_history : LoopHistory [] .initial := by
  refine ⟨rfl, fun thread record => ?_, fun thread record => ?_, fun thread hSome => absurd rfl hSome,
    List.nodup_nil⟩
  · simp [AcceptLoop.initial]
  · simp [AcceptLoop.initial]

/-- Where a run of the loop is, whatever it did so far. -/
theorem run_loop (hRun : run AcceptLoop.step actions .initial = .ok (trace, state)) :
    ∃ scanned rest, LoopHolds state scanned rest ∧ LoopHistory trace state ∧
      PeakHolds trace state scanned rest := by
  have hStart : PeakHolds [] .initial [] [] := by
    refine ⟨fun _ => ⟨_, initial_history.reached, Nat.zero_le _⟩, fun hNot => absurd rfl hNot, fun hMain => ?_⟩
    cases hMain
  refine run_induct (fun trace state => ∃ scanned rest, LoopHolds state scanned rest ∧
    LoopHistory trace state ∧ PeakHolds trace state scanned rest) ?_ []
    ⟨[], [], initial_holds, initial_history, hStart⟩ along_true hRun
  rintro trace state action event next ⟨scanned, rest, hHolds, hHistory, hPeak⟩ hStep _
  exact loop_step hHolds hHistory hPeak hStep

/-- No step accesses a record that was freed, walks off the list, frees a
record again or joins a thread again. -/
theorem run_ne_fault : run AcceptLoop.step actions .initial ≠ .error .fault := by
  refine run_ne_error (fun state => ∃ scanned rest, LoopHolds state scanned rest) ?_ ?_
    ⟨[], [], initial_holds⟩
  · rintro state action event next ⟨scanned, rest, hHolds⟩ hStep
    have hOutcome := step_outcome hHolds action
    rw [hStep] at hOutcome
    cases hOutcome with
    | transferred => exact ⟨_, _, hHolds⟩
    | _ => exact ⟨_, _, by assumption⟩
  · rintro state action ⟨scanned, rest, hHolds⟩ hFault
    have hOutcome := step_outcome hHolds action
    rw [hFault] at hOutcome
    cases hOutcome

/-- In front of `accept` the list is the records of the threads that were
accepted and not joined. -/
theorem LoopHolds.records_iff (h : LoopHolds state scanned rest) (hHistory : LoopHistory trace state) :
    record ∈ scanned ++ rest ↔ record ∈ madeRecords trace ∧ record ∉ reapedRecords trace := by
  rw [h.members, mem_madeRecords, mem_reapedRecords]
  simp only [hHistory.made, hHistory.reaped]
  constructor
  · rintro ⟨thread, hListed, rfl⟩
    refine ⟨⟨thread, hListed.1, rfl⟩, ?_⟩
    rintro ⟨other, hJoined, hSame⟩
    rw [h.injective other thread (by simp [hJoined]) hListed.1 hSame] at hJoined
    exact hListed.2 hJoined
  · rintro ⟨⟨thread, hSome, rfl⟩, hNot⟩
    exact ⟨thread, ⟨hSome, fun hJoined => hNot ⟨thread, hJoined, rfl⟩⟩, rfl⟩

/-- In other words they are the records of the threads that were accepted and
that no event has joined. -/
theorem LoopHolds.threads_iff (h : LoopHolds state scanned rest) (hHistory : LoopHistory trace state) :
    record ∈ scanned ++ rest ↔ ∃ thread < state.accepted,
      (∀ reaped, .joined thread reaped ∉ trace.map Prod.snd) ∧ state.params thread = record := by
  rw [h.members]
  refine exists_congr fun thread => ?_
  have hAccepted : state.handler thread ≠ .absent ↔ thread < state.accepted := by
    rw [ne_eq, h.absent, Nat.not_le]
  have hJoined : (∀ reaped, .joined thread reaped ∉ trace.map Prod.snd) ↔ state.handler thread ≠ .joined := by
    simp [hHistory.reaped]
  rw [hJoined, ← hAccepted, HandlerAt.Listed, and_assoc]

/-- Whatever a step does that is taken, an `accept` makes a record and a join
reaps one, and no other step does. -/
theorem RecordsCounted.step (h : RecordsCounted trace state) (hHolds : LoopHolds state scanned rest)
    (hStep : AcceptLoop.step action state = .ok (event, next)) :
    RecordsCounted (trace ++ [(action, event)]) next := by
  have hOutcome := step_outcome hHolds action
  rw [hStep] at hOutcome
  have hMade : madeRecords (trace ++ [(action, event)]) = madeRecords trace ++ madeRecords [(action, event)] :=
    List.filterMap_append
  have hReaped : reapedRecords (trace ++ [(action, event)]) =
      reapedRecords trace ++ reapedRecords [(action, event)] := List.filterMap_append
  refine ⟨?_, ?_, ?_⟩
  · rw [List.map_append, List.countP_append, h.accepts]
    cases hOutcome <;> rfl
  · rw [hMade, h.made]
    cases hOutcome with
    | accepted fd junk heap descriptors =>
        rw [List.range_succ, List.map_append]
        refine congrArg₂ _ (List.map_congr_left fun thread hThread => ?_) ?_
        · exact (Function.update_of_ne (Nat.ne_of_lt (List.mem_range.mp hThread)) _ _).symm
        · simp [madeRecords]
    | _ => exact List.append_nil _
  · rw [hReaped, List.length_append, h.joins, List.map_append, List.countP_append]
    cases hOutcome <;> rfl

theorem run_counted (hRun : run AcceptLoop.step actions .initial = .ok (trace, state)) :
    RecordsCounted trace state := by
  have hBoth := run_induct (fun trace state => (∃ scanned rest, LoopHolds state scanned rest ∧
    LoopHistory trace state ∧ PeakHolds trace state scanned rest) ∧ RecordsCounted trace state) ?_ []
    ⟨run_loop run_nil, ⟨rfl, rfl, rfl⟩⟩ along_true hRun
  · exact hBoth.2
  · rintro trace state action event next ⟨⟨scanned, rest, hHolds, hHistory, hPeak⟩, hCounted⟩ hStep _
    exact ⟨loop_step hHolds hHistory hPeak hStep, hCounted.step hHolds hStep⟩

/-- A record that is joined was made for its thread before, and the thread
has set `isDone` before. -/
theorem joined_after_done {before after : LoopTrace}
    (hRun : run AcceptLoop.step actions .initial =
      .ok (before ++ (action, .joined thread record) :: after, state)) :
    LoopAction.setDone thread ∈ before.map Prod.fst ∧
      ∃ fd, LoopEvent.accepted thread record fd ∈ before.map Prod.snd := by
  obtain ⟨middle, next, hBefore, hStep⟩ := run_split hRun
  obtain ⟨scanned, rest, hHolds, hHistory, _⟩ := run_loop hBefore
  have hOutcome := step_outcome hHolds action
  rw [hStep] at hOutcome
  cases hOutcome with
  | joined _ _ _ _ hReturned =>
      have hSome : middle.handler thread ≠ .absent := by simp [hReturned]
      exact ⟨hHistory.finished thread hSome (by simp [hReturned]),
        (hHistory.made thread _).mpr ⟨hSome, rfl⟩⟩

/-- Each `accept` makes a record and each join reaps one. Records are joined,
taken out and freed at most once, after their handlers set `isDone`; no step
accesses one after that; in front of `accept` the list has the record of each
thread that was accepted and not joined once, and is no longer than the number
of threads that once were unfinished together. -/
theorem records_reaped (actions : List LoopAction) :
    run AcceptLoop.step actions .initial ≠ .error .fault ∧
    ∀ trace state, run AcceptLoop.step actions .initial = .ok (trace, state) →
      RecordsCounted trace state ∧
      (reapedRecords trace).Nodup ∧
      (∀ record ∈ reapedRecords trace, ¬ state.heap.Live record) ∧
      (∀ before action thread record after, trace = before ++ (action, .joined thread record) :: after →
        LoopAction.setDone thread ∈ before.map Prod.fst ∧
          ∃ fd, LoopEvent.accepted thread record fd ∈ before.map Prod.snd) ∧
      (state.main = .accepting → ∃ records, Chain state.heap state.head records ∧ records.Nodup ∧
        (∀ record, record ∈ records ↔ record ∈ madeRecords trace ∧ record ∉ reapedRecords trace) ∧
        (∀ record, record ∈ records ↔ ∃ thread < state.accepted,
          (∀ reaped, .joined thread reaped ∉ trace.map Prod.snd) ∧ state.params thread = record) ∧
        ∃ earlier, ReachedIn trace earlier ∧ records.length ≤ earlier.unfinished.length) := by
  refine ⟨run_ne_fault, fun trace state hRun => ?_⟩
  obtain ⟨scanned, rest, hHolds, hHistory, hPeak⟩ := run_loop hRun
  refine ⟨run_counted hRun, hHistory.once, fun record hRecord => ?_, ?_, fun hMain => ?_⟩
  · obtain ⟨thread, hEvent⟩ := mem_reapedRecords.mp hRecord
    obtain ⟨hJoined, rfl⟩ := (hHistory.reaped thread record).mp hEvent
    exact hHolds.freed thread hJoined
  · rintro before action thread record after rfl
    exact joined_after_done hRun
  · exact ⟨_, hHolds.chain, hHolds.chain.nodup, fun record => hHolds.records_iff hHistory,
      fun record => hHolds.threads_iff hHistory, hPeak.accepting hMain⟩

/-- The second of two connections finds the first one's record behind its own. -/
example : ∃ trace state, run AcceptLoop.step [.accept 4 ⟨⟨true, 7, 9⟩, none⟩, .test, .test, .setDone 0,
      .exit 0, .accept 5 ⟨⟨true, 7, 9⟩, none⟩, .test, .test, .join] .initial = .ok (trace, state) ∧
    state.main = .accepting ∧ madeRecords trace = [0, 1] ∧ reapedRecords trace = [0] :=
  ⟨_, _, rfl, rfl, rfl, rfl⟩

end Aesd
