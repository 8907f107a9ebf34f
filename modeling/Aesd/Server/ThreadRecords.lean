import Aesd.Server.AcceptLoop

/-! How the thread records come and go. The list has the records of the
threads that were not joined; a record that is freed is out of the list, and
its thread has returned. -/
namespace Aesd
open Memory Execution Linked

/-- The thread has a record that it may still use. -/
def HandlerAt.Listed (handler : HandlerAt) : Prop := handler ≠ .absent ∧ handler ≠ .joined

/-- The state when the thread of a new connection was created. -/
abbrev AcceptLoop.inserted (state : AcceptLoop) (heap : Heap ListDataDef) (descriptors : Descriptors) :
    AcceptLoop :=
  { state with
    heap, head := some state.heap.next, dataPointer := some state.heap.next, main := .testing,
    accepted := state.accepted + 1,
    handler := Function.update state.handler state.accepted .running,
    params := Function.update state.params state.accepted state.heap.next, descriptors }

/-- The state when a handler came to its next phase. -/
abbrev AcceptLoop.moved (state : AcceptLoop) (heap : Heap ListDataDef) (thread : Nat) (phase : HandlerAt) :
    AcceptLoop :=
  { state with heap, handler := Function.update state.handler thread phase }

/-- The state when a thread was joined and its record is gone. -/
abbrev AcceptLoop.reaped (state : AcceptLoop) (heap : Heap ListDataDef) (head : Option Nat) (thread : Nat) :
    AcceptLoop :=
  { state with heap, head, main := .accepting, handler := Function.update state.handler thread .joined }

/-- The list is the records that a scan has passed and those that it has not;
they are the records of the listed threads, and a record says that its thread
is done exactly when it is. -/
structure LoopHolds (state : AcceptLoop) (scanned rest : List Nat) : Prop where
  chain : Chain state.heap state.head (scanned ++ rest)
  members : ∀ record, record ∈ scanned ++ rest ↔
    ∃ thread, (state.handler thread).Listed ∧ state.params thread = record
  absent : ∀ thread, state.handler thread = .absent ↔ state.accepted ≤ thread
  node : ∀ thread, (state.handler thread).Listed → ∃ node,
    state.heap.block (state.params thread) = some [node] ∧ node.data.ID = thread ∧
      (node.data.isDone = true ↔ state.handler thread ≠ .running)
  fresh : ∀ thread, state.handler thread ≠ .absent → state.params thread < state.heap.next
  injective : ∀ thread other, state.handler thread ≠ .absent → state.handler other ≠ .absent →
    state.params thread = state.params other → thread = other
  freed : ∀ thread, state.handler thread = .joined → ¬ state.heap.Live (state.params thread)
  testing : state.main = .testing → Chain state.heap state.dataPointer rest
  joining : state.main = .joining → ∃ thread, (state.handler thread).Listed ∧
    state.handler thread ≠ .running ∧ state.dataPointer = some (state.params thread)

variable {state next : AcceptLoop} {scanned rest : List Nat} {thread record fd : Nat}
  {heap after : Heap ListDataDef} {node junk : ListDataDef} {change : ThreadsDef → ThreadsDef}
  {descriptors : Descriptors} {action : LoopAction} {event : LoopEvent}

theorem assign_of_block (change : ThreadsDef → ThreadsDef) (h : heap.block record = some [node]) :
    ∃ after, assign (some record) change heap = .ok after ∧
      after.block record = some [⟨change node.data, node.next⟩] ∧
      (∀ other, other ≠ record → after.block other = heap.block other) ∧ after.next = heap.next := by
  obtain ⟨after, hWrite, hSelf, hOther, hNext, _⟩ := write_of_block ⟨change node.data, node.next⟩ h
  refine ⟨after, ?_, hSelf, hOther, hNext⟩
  simp [assign, orFault, read_of_block h, hWrite, bind, Except.bind]

/-- A new record goes in front of the list, with its thread's parameters. -/
theorem acceptConnection_eq (hMain : state.main = .accepting)
    (hDescriptors : state.descriptors.accept fd state.accepted = some descriptors) :
    ∃ heap, state.acceptConnection fd junk = .ok (.accepted state.accepted state.heap.next fd,
        state.inserted heap descriptors) ∧
      heap.block state.heap.next = some [⟨⟨false, state.accepted, fd⟩, state.head⟩] ∧
      (∀ other, other ≠ state.heap.next → heap.block other = state.heap.block other) ∧
      heap.next = state.heap.next + 1 := by
  obtain ⟨new, hNew⟩ : ∃ new, new = state.heap.alloc [junk] := ⟨_, rfl⟩
  have hBlock : new.block state.heap.next = some [junk] := by rw [hNew, Heap.alloc_block_next]
  obtain ⟨linked, hWrite, hLinked, hOther, hNext, _⟩ := write_of_block ⟨junk.data, state.head⟩ hBlock
  obtain ⟨first, hFirst, hFirstBlock, hFirstOther, hFirstNext⟩ :=
    assign_of_block (fun params => { params with threadFD := fd }) hLinked
  obtain ⟨second, hSecond, hSecondBlock, hSecondOther, hSecondNext⟩ :=
    assign_of_block (fun params => { params with isDone := false }) hFirstBlock
  obtain ⟨third, hThird, hThirdBlock, hThirdOther, hThirdNext⟩ :=
    assign_of_block (fun params => { params with ID := state.accepted }) hSecondBlock
  refine ⟨third, ?_, hThirdBlock, fun other hNe => ?_, ?_⟩
  · have hInsert : insertHead new state.head state.heap.next = some (linked, some state.heap.next) := by
      simp [insertHead, read_of_block hBlock, hWrite]
    simp [AcceptLoop.acceptConnection, hMain, hDescriptors, ← hNew, hInsert, orFault, hFirst, hSecond,
      hThird, bind, Except.bind, pure, Except.pure]
  · rw [hThirdOther other hNe, hSecondOther other hNe, hFirstOther other hNe, hOther other hNe, hNew]
    simp [Heap.alloc, hNe]
  · rw [hThirdNext, hSecondNext, hFirstNext, hNext, hNew]
    rfl

theorem created_update {handler : Nat → HandlerAt} {phase : HandlerAt} {other : Nat}
    (hBefore : handler thread ≠ .absent) (hAfter : phase ≠ .absent) :
    Function.update handler thread phase other ≠ .absent ↔ handler other ≠ .absent := by
  by_cases hSame : other = thread
  · simp [hSame, hBefore, hAfter]
  · simp [Function.update_of_ne, hSame]

theorem listed_joined {handler : Nat → HandlerAt} {other : Nat} :
    (Function.update handler thread .joined other).Listed ↔ other ≠ thread ∧ (handler other).Listed := by
  by_cases hSame : other = thread
  · simp [hSame, HandlerAt.Listed]
  · simp [Function.update_of_ne, hSame]

namespace LoopHolds

theorem listed_lt (h : LoopHolds state scanned rest) (hListed : (state.handler thread).Listed) :
    thread < state.accepted :=
  Nat.lt_of_not_le fun hLate => hListed.1 ((h.absent thread).mpr hLate)

theorem mem_of_listed (h : LoopHolds state scanned rest) (hListed : (state.handler thread).Listed) :
    state.params thread ∈ scanned ++ rest :=
  (h.members _).mpr ⟨thread, hListed, rfl⟩

theorem length_le (h : LoopHolds state scanned rest) : (scanned ++ rest).length ≤ state.accepted := by
  have hSubset : scanned ++ rest ⊆ (List.range state.accepted).map state.params := by
    intro record hRecord
    obtain ⟨owner, hOwner, rfl⟩ := (h.members record).mp hRecord
    exact List.mem_map.mpr ⟨owner, List.mem_range.mpr (h.listed_lt hOwner), rfl⟩
  simpa using h.chain.nodup.length_le_of_subset hSubset

/-- A new thread is listed, and nothing was scanned yet. -/
theorem accept (h : LoopHolds state scanned rest)
    (hBlock : heap.block state.heap.next = some [⟨⟨false, state.accepted, fd⟩, state.head⟩])
    (hOther : ∀ other, other ≠ state.heap.next → heap.block other = state.heap.block other)
    (hNext : heap.next = state.heap.next + 1) :
    LoopHolds (state.inserted heap descriptors) [] (state.heap.next :: (scanned ++ rest)) := by
  have hAbsent : state.handler state.accepted = .absent := (h.absent _).mpr (Nat.le_refl _)
  have hOld : ∀ thread, state.handler thread ≠ .absent → thread ≠ state.accepted :=
    fun thread hSome hSame => hSome (hSame ▸ hAbsent)
  have hNe : ∀ thread, state.handler thread ≠ .absent → state.params thread ≠ state.heap.next :=
    fun thread hSome => Nat.ne_of_lt (h.fresh thread hSome)
  have hChain : Chain heap (some state.heap.next) (state.heap.next :: (scanned ++ rest)) := by
    refine ⟨rfl, _, hBlock, h.chain.of_block_eq fun id hMem => hOther id ?_⟩
    obtain ⟨thread, hListed, rfl⟩ := (h.members id).mp hMem
    exact hNe thread hListed.1
  refine ⟨hChain, fun record => ?_, fun thread => ?_, fun thread => ?_, fun thread => ?_,
    fun thread other => ?_, fun thread => ?_, fun _ => hChain, fun hJoining => by cases hJoining⟩
  · rw [List.nil_append, List.mem_cons, h.members]
    constructor
    · rintro (rfl | ⟨thread, hListed, rfl⟩)
      · exact ⟨state.accepted, by simp [HandlerAt.Listed], by simp⟩
      · refine ⟨thread, ?_, ?_⟩
        · simpa only [Function.update_of_ne (hOld thread hListed.1)] using hListed
        · simp only [Function.update_of_ne (hOld thread hListed.1)]
    · rintro ⟨thread, hListed, rfl⟩
      by_cases hSame : thread = state.accepted
      · left
        simp only [hSame, Function.update_self]
      · right
        simp only [Function.update_of_ne hSame] at hListed ⊢
        exact ⟨thread, hListed, rfl⟩
  · by_cases hSame : thread = state.accepted
    · simp [hSame]
    · simp only [Function.update_of_ne hSame, h.absent]
      omega
  · by_cases hSame : thread = state.accepted
    · subst hSame
      simp [hBlock]
    · simp only [Function.update_of_ne hSame]
      intro hListed
      rw [hOther _ (hNe thread hListed.1)]
      exact h.node thread hListed
  · by_cases hSame : thread = state.accepted
    · subst hSame
      simp [hNext]
    · simp only [Function.update_of_ne hSame, hNext]
      intro hSome
      exact Nat.lt_succ_of_lt (h.fresh thread hSome)
  · by_cases hFirst : thread = state.accepted
    · by_cases hSecond : other = state.accepted
      · intro _ _ _
        rw [hFirst, hSecond]
      · simp only [hFirst, Function.update_self, Function.update_of_ne hSecond]
        intro _ hSome hSame
        exact absurd hSame.symm (hNe other hSome)
    · by_cases hSecond : other = state.accepted
      · simp only [hSecond, Function.update_self, Function.update_of_ne hFirst]
        intro hSome _ hSame
        exact absurd hSame (hNe thread hSome)
      · simp only [Function.update_of_ne hFirst, Function.update_of_ne hSecond]
        exact h.injective thread other
  · by_cases hSame : thread = state.accepted
    · simp [hSame]
    · simp only [Function.update_of_ne hSame]
      intro hJoined
      have hSome : state.handler thread ≠ .absent := by simp [hJoined]
      rw [Heap.Live, hOther _ (hNe thread hSome)]
      exact h.freed thread hJoined

/-- The handler of a listed thread goes on; in the heap at most the data of
its own record changes, and says whether the thread is done. -/
theorem advance (h : LoopHolds state scanned rest) {phase : HandlerAt} (hListed : (state.handler thread).Listed)
    (hPhase : phase.Listed) (hDone : state.handler thread ≠ .running → phase ≠ .running)
    (hBlock : ∃ node after, state.heap.block (state.params thread) = some [node] ∧
      heap.block (state.params thread) = some [⟨after, node.next⟩] ∧ after.ID = thread ∧
      (after.isDone = true ↔ phase ≠ .running))
    (hOther : ∀ other, other ≠ state.params thread → heap.block other = state.heap.block other)
    (hNext : heap.next = state.heap.next) :
    LoopHolds (state.moved heap thread phase) scanned rest := by
  obtain ⟨node, params, hOld, hNew, hID, hIsDone⟩ := hBlock
  have hLinks : ∀ id node, state.heap.block id = some [node] →
      ∃ data, heap.block id = some [⟨data, node.next⟩] := by
    intro id same hSame
    by_cases hId : id = state.params thread
    · subst hId
      rw [hOld] at hSame
      cases hSame
      exact ⟨params, hNew⟩
    · exact ⟨same.data, (hOther id hId).trans hSame⟩
  have hListedIff : ∀ other, (Function.update state.handler thread phase other).Listed ↔
      (state.handler other).Listed := by
    intro other
    by_cases hSame : other = thread
    · subst hSame
      simp [hPhase, hListed]
    · rw [Function.update_of_ne hSame]
  refine ⟨h.chain.congr fun id _ => hLinks id, fun record => ?_, fun other => ?_, fun other => ?_,
    fun other => ?_, fun first second => ?_, fun other hJoined => ?_,
    fun hMain => (h.testing hMain).congr fun id _ => hLinks id, fun hMain => ?_⟩
  · simp only [hListedIff]
    exact h.members record
  · rw [← h.absent, ← not_iff_not]
    exact created_update hListed.1 hPhase.1
  · simp only [hListedIff]
    intro hOtherListed
    by_cases hSame : other = thread
    · subst hSame
      exact ⟨_, hNew, hID, by simpa only [Function.update_self] using hIsDone⟩
    · obtain ⟨same, hSameBlock, hFacts⟩ := h.node other hOtherListed
      refine ⟨same, (hOther _ fun hParams => hSame ?_).trans hSameBlock, ?_⟩
      · exact h.injective other thread hOtherListed.1 hListed.1 hParams
      · simpa only [Function.update_of_ne hSame] using hFacts
  · simp only [created_update hListed.1 hPhase.1, hNext]
    exact h.fresh other
  · simp only [created_update hListed.1 hPhase.1]
    exact h.injective first second
  · have hNe : other ≠ thread := by
      rintro rfl
      exact hPhase.2 (by simpa only [Function.update_self] using hJoined)
    have hJoined : state.handler other = .joined := by
      simpa only [Function.update_of_ne hNe] using hJoined
    have hParams : state.params other ≠ state.params thread := fun hSame =>
      hNe (h.injective other thread (by simp [hJoined]) hListed.1 hSame)
    rw [Heap.Live, hOther _ hParams]
    exact h.freed other hJoined
  · obtain ⟨joining, hJoining, hNotRunning, hPointer⟩ := h.joining hMain
    refine ⟨joining, (hListedIff joining).mpr hJoining, ?_, hPointer⟩
    by_cases hSame : joining = thread
    · subst hSame
      simpa only [Function.update_self] using hDone hNotRunning
    · simpa only [Function.update_of_ne hSame] using hNotRunning

/-- A record whose thread is joined leaves the list and the memory. -/
theorem reap (h : LoopHolds state scanned rest) (hListed : (state.handler thread).Listed) :
    ∃ heap head, (state.moved state.heap thread .joined).reap (state.params thread) =
        .ok { state.moved heap thread .joined with head } ∧
      LoopHolds (state.reaped heap head thread) ((scanned ++ rest).erase (state.params thread)) [] ∧
      ∀ other, other ≠ thread → (state.handler other).Listed → ∀ node,
        state.heap.block (state.params other) = some [node] →
          ∃ link, heap.block (state.params other) = some [⟨node.data, link⟩] := by
  obtain ⟨after, head, hRemove, hChain, hRelinked⟩ := h.chain.remove (h.mem_of_listed hListed) h.length_le
  obtain ⟨node, hBlock, _⟩ := h.node thread hListed
  have hLive : after.Live (state.params thread) := (hRelinked.live _).mpr (Heap.live_of_block hBlock)
  have hNe : ∀ other, other ≠ thread → (state.handler other).Listed →
      state.params other ≠ state.params thread := fun other hOther hOtherListed hSame =>
    hOther (h.injective other thread hOtherListed.1 hListed.1 hSame)
  have hData : ∀ other, other ≠ thread → (state.handler other).Listed → ∀ node,
      state.heap.block (state.params other) = some [node] →
        ∃ link, (after.free (state.params thread)).block (state.params other) = some [⟨node.data, link⟩] := by
    intro other hOther hOtherListed node hBlock
    rw [Heap.free_block_of_ne (hNe other hOther hOtherListed)]
    exact hRelinked.data _ node hBlock
  refine ⟨after.free (state.params thread), head, ?_, ⟨?_, fun record => ?_, fun other => ?_,
    fun other => ?_, fun other => ?_, fun first second => ?_, fun other hJoined => ?_,
    fun hMain => (by cases hMain), fun hMain => (by cases hMain)⟩, hData⟩
  · simp [AcceptLoop.reap, hRemove, orFault, freeRecord, hLive, bind, Except.bind, pure, Except.pure]
  · rw [List.append_nil]
    refine hChain.of_block_eq fun id hId => Heap.free_block_of_ne ?_
    exact ((h.chain.nodup.mem_erase_iff).mp hId).1
  · rw [List.append_nil, h.chain.nodup.mem_erase_iff, h.members]
    simp only [listed_joined]
    constructor
    · rintro ⟨hRecord, other, hOther, rfl⟩
      exact ⟨other, ⟨fun hSame => hRecord (by rw [hSame]), hOther⟩, rfl⟩
    · rintro ⟨other, ⟨hOther, hOtherListed⟩, rfl⟩
      exact ⟨hNe other hOther hOtherListed, other, hOtherListed, rfl⟩
  · rw [← h.absent, ← not_iff_not]
    exact created_update hListed.1 (by simp)
  · simp only [listed_joined]
    rintro ⟨hOther, hOtherListed⟩
    obtain ⟨same, hSame, hFacts⟩ := h.node other hOtherListed
    obtain ⟨link, hLink⟩ := hData other hOther hOtherListed same hSame
    exact ⟨_, hLink, by simpa only [Function.update_of_ne hOther] using hFacts⟩
  · simp only [created_update hListed.1 (by simp : HandlerAt.joined ≠ .absent)]
    intro hOther
    exact Nat.lt_of_lt_of_eq (h.fresh other hOther) hRelinked.next.symm
  · simp only [created_update hListed.1 (by simp : HandlerAt.joined ≠ .absent)]
    exact h.injective first second
  · rw [Heap.live_free, hRelinked.live]
    rintro ⟨hStillLive, hOther⟩
    have hNe : other ≠ thread := by
      rintro rfl
      exact hOther rfl
    exact h.freed other (by simpa only [Function.update_of_ne hNe] using hJoined) hStillLive

/-- The list does not depend on what is open. -/
theorem with_descriptors (h : LoopHolds state scanned rest) (descriptors : Descriptors) :
    LoopHolds { state with descriptors } scanned rest where
  chain := h.chain
  members := h.members
  absent := h.absent
  node := h.node
  fresh := h.fresh
  injective := h.injective
  freed := h.freed
  testing := h.testing
  joining := h.joining

/-- Between two tests of the scan only the main thread's place changes. -/
theorem scan {passed ahead : List Nat} {main : MainAt} {dataPointer : Option Nat}
    (h : LoopHolds state scanned rest) (hSame : passed ++ ahead = scanned ++ rest)
    (hTesting : main = .testing → Chain state.heap dataPointer ahead)
    (hJoining : main = .joining → ∃ thread, (state.handler thread).Listed ∧
      state.handler thread ≠ .running ∧ dataPointer = some (state.params thread)) :
    LoopHolds { state with main, dataPointer } passed ahead where
  chain := hSame ▸ h.chain
  members := hSame ▸ h.members
  absent := h.absent
  node := h.node
  fresh := h.fresh
  injective := h.injective
  freed := h.freed
  testing := hTesting
  joining := hJoining

/-- The record that the scan has come to is that of a listed thread. -/
theorem scanned_next {behind : List Nat} (h : LoopHolds state scanned (record :: behind))
    (hMain : state.main = .testing) :
    ∃ thread node, (state.handler thread).Listed ∧ record = state.params thread ∧
      read state.heap state.dataPointer = some node ∧ Chain state.heap node.next behind ∧
      (node.data.isDone = true ↔ state.handler thread ≠ .running) := by
  obtain ⟨thread, hListed, rfl⟩ := (h.members record).mp (by simp)
  obtain ⟨hPointer, node, hBlock, hBehind⟩ := h.testing hMain
  obtain ⟨same, hSame, _, hDone⟩ := h.node thread hListed
  rw [hBlock] at hSame
  cases hSame
  exact ⟨thread, node, hListed, rfl, hPointer ▸ read_of_block hBlock, hBehind, hDone⟩

end LoopHolds

/-- Everything a step can do, and the list after it. -/
inductive LoopOutcome (state : AcceptLoop) (scanned rest : List Nat) :
    LoopAction → Except LoopHalt (LoopEvent × AcceptLoop) → Prop where
  | order (action : LoopAction) : LoopOutcome state scanned rest action (.error .order)
  | waits : LoopOutcome state scanned rest .join (.error .waits)
  | accepted (fd : Nat) (junk : ListDataDef) (heap : Heap ListDataDef) (descriptors : Descriptors)
      (hMain : state.main = .accepting)
      (hDescriptors : state.descriptors.accept fd state.accepted = some descriptors)
      (hHolds : LoopHolds (state.inserted heap descriptors) [] (state.heap.next :: (scanned ++ rest))) :
      LoopOutcome state scanned rest (.accept fd junk)
        (.ok (.accepted state.accepted state.heap.next fd, state.inserted heap descriptors))
  | ended (hMain : state.main = .testing) (hRest : rest = [])
      (hHolds : LoopHolds { state with main := .accepting } scanned rest) :
      LoopOutcome state scanned rest .test (.ok (.none, { state with main := .accepting }))
  | found (hMain : state.main = .testing) (hHolds : LoopHolds { state with main := .joining } scanned rest) :
      LoopOutcome state scanned rest .test (.ok (.none, { state with main := .joining }))
  | passed (thread : Nat) (behind : List Nat) (dataPointer : Option Nat) (hMain : state.main = .testing)
      (hRest : rest = state.params thread :: behind) (hRunning : state.handler thread = .running)
      (hHolds : LoopHolds { state with dataPointer } (scanned ++ [state.params thread]) behind) :
      LoopOutcome state scanned rest .test (.ok (.none, { state with dataPointer }))
  | joined (thread : Nat) (heap : Heap ListDataDef) (head : Option Nat) (hMain : state.main = .joining)
      (hReturned : state.handler thread = .returned)
      (hHolds : LoopHolds (state.reaped heap head thread) ((scanned ++ rest).erase (state.params thread)) []) :
      LoopOutcome state scanned rest .join
        (.ok (.joined thread (state.params thread), state.reaped heap head thread))
  | transferred (thread fd : Nat) :
      LoopOutcome state scanned rest (.transfer thread) (.ok (.transferred thread fd, state))
  | done (thread : Nat) (heap : Heap ListDataDef) (hRunning : state.handler thread = .running)
      (hHolds : LoopHolds (state.moved heap thread .done) scanned rest) :
      LoopOutcome state scanned rest (.setDone thread) (.ok (.none, state.moved heap thread .done))
  | exited (thread : Nat) (hDone : state.handler thread = .done)
      (hHolds : LoopHolds (state.moved state.heap thread .returned) scanned rest) :
      LoopOutcome state scanned rest (.exit thread)
        (.ok (.none, state.moved state.heap thread .returned))

theorem acceptConnection_outcome (h : LoopHolds state scanned rest) (fd : Nat) (junk : ListDataDef) :
    LoopOutcome state scanned rest (.accept fd junk) (state.acceptConnection fd junk) := by
  cases hMain : state.main with
  | testing =>
      simp only [AcceptLoop.acceptConnection, hMain]
      exact .order _
  | joining =>
      simp only [AcceptLoop.acceptConnection, hMain]
      exact .order _
  | accepting =>
      cases hDescriptors : state.descriptors.accept fd state.accepted with
      | none =>
          simp only [AcceptLoop.acceptConnection, hMain, hDescriptors]
          exact .order _
      | some descriptors =>
          obtain ⟨heap, hResult, hBlock, hOther, hNext⟩ := acceptConnection_eq hMain hDescriptors
          rw [hResult]
          exact .accepted fd junk heap descriptors hMain hDescriptors (h.accept hBlock hOther hNext)

theorem testRecord_outcome (h : LoopHolds state scanned rest) :
    LoopOutcome state scanned rest .test state.testRecord := by
  cases hMain : state.main with
  | accepting =>
      simp only [AcceptLoop.testRecord, hMain]
      exact .order _
  | joining =>
      simp only [AcceptLoop.testRecord, hMain]
      exact .order _
  | testing =>
      cases rest with
      | nil =>
          have hPointer : state.dataPointer = none := h.testing hMain
          have hResult : state.testRecord = .ok (.none, { state with main := .accepting }) := by
            simp [AcceptLoop.testRecord, hMain, hPointer]
          rw [hResult]
          exact .ended hMain rfl (h.scan rfl (fun hTesting => by cases hTesting) fun hJoining => by cases hJoining)
      | cons record behind =>
          obtain ⟨thread, node, hListed, rfl, hRead, hBehind, hDone⟩ := h.scanned_next hMain
          have hPointer : state.dataPointer = some (state.params thread) := (h.testing hMain).pointer_eq
          rw [hPointer] at hRead
          by_cases hIsDone : node.data.isDone = true
          · have hResult : state.testRecord = .ok (.none, { state with main := .joining }) := by
              simp [AcceptLoop.testRecord, hMain, hPointer, hRead, orFault, hIsDone, bind, Except.bind, pure,
                Except.pure]
            rw [hResult]
            refine .found hMain (h.scan rfl (fun hTesting => by cases hTesting) fun _ => ?_)
            exact ⟨thread, hListed, hDone.mp hIsDone, hPointer⟩
          · have hResult : state.testRecord = .ok (.none, { state with dataPointer := node.next }) := by
              simp [AcceptLoop.testRecord, hMain, hPointer, hRead, orFault, hIsDone, bind, Except.bind, pure,
                Except.pure]
            have hRunning : state.handler thread = .running := by
              by_contra hNot
              exact hIsDone (hDone.mpr hNot)
            have hSplit : (scanned ++ [state.params thread]) ++ behind = scanned ++ state.params thread :: behind :=
              List.append_cons scanned _ behind ▸ rfl
            rw [hResult]
            refine .passed thread behind node.next hMain rfl hRunning (h.scan hSplit (fun _ => hBehind) ?_)
            intro hJoining
            cases hMain.symm.trans hJoining

theorem joinThread_outcome (h : LoopHolds state scanned rest) :
    LoopOutcome state scanned rest .join state.joinThread := by
  cases hMain : state.main with
  | accepting =>
      simp only [AcceptLoop.joinThread, hMain]
      exact .order _
  | testing =>
      simp only [AcceptLoop.joinThread, hMain]
      exact .order _
  | joining =>
      obtain ⟨thread, hListed, hNotRunning, hPointer⟩ := h.joining hMain
      obtain ⟨node, hBlock, rfl, _⟩ := h.node thread hListed
      have hRead := read_of_block hBlock
      have hJoin : state.joinThread = (do
          let next ← pthreadJoin node.data.ID state
          let next ← next.reap (state.params node.data.ID)
          return (.joined node.data.ID (state.params node.data.ID), { next with main := .accepting })) := by
        simp [AcceptLoop.joinThread, hMain, hPointer, hRead, orFault, bind, Except.bind]
      rw [hJoin]
      cases hHandler : state.handler node.data.ID with
      | absent => exact absurd hHandler hListed.1
      | joined => exact absurd hHandler hListed.2
      | running => exact absurd hHandler hNotRunning
      | done =>
          have hWaits : pthreadJoin node.data.ID state = .error .waits := by simp [pthreadJoin, hHandler]
          rw [hWaits]
          exact .waits
      | returned =>
          obtain ⟨heap, head, hReap, hHolds, _⟩ := h.reap hListed
          have hJoined : pthreadJoin node.data.ID state = .ok (state.moved state.heap node.data.ID .joined) := by
            simp [pthreadJoin, hHandler]
          rw [hJoined]
          simp only [bind, Except.bind, hReap]
          exact .joined _ heap head hMain hHandler hHolds

/-- The join of a thread that has returned, and what the other records keep. -/
theorem joinThread_eq (h : LoopHolds state scanned rest) (hMain : state.main = .joining)
    (hPointer : state.dataPointer = some (state.params thread)) (hReturned : state.handler thread = .returned) :
    ∃ heap head, state.joinThread = .ok (.joined thread (state.params thread), state.reaped heap head thread) ∧
      ∀ other, other ≠ thread → (state.handler other).Listed → ∀ node,
        state.heap.block (state.params other) = some [node] →
          ∃ link, heap.block (state.params other) = some [⟨node.data, link⟩] := by
  have hListed : (state.handler thread).Listed := by simp [HandlerAt.Listed, hReturned]
  obtain ⟨node, hBlock, rfl, _⟩ := h.node thread hListed
  obtain ⟨heap, head, hReap, _, hData⟩ := h.reap hListed
  have hJoin : pthreadJoin node.data.ID state = .ok (state.moved state.heap node.data.ID .joined) := by
    simp [pthreadJoin, hReturned]
  have hRead := read_of_block hBlock
  have hStart : state.joinThread = (do
      let next ← pthreadJoin node.data.ID state
      let next ← next.reap (state.params node.data.ID)
      return (.joined node.data.ID (state.params node.data.ID), { next with main := .accepting })) := by
    simp [AcceptLoop.joinThread, hMain, hPointer, hRead, orFault, bind, Except.bind]
  refine ⟨heap, head, ?_, hData⟩
  rw [hStart, hJoin]
  simp only [bind, Except.bind, hReap]
  rfl

/-- A handler that sets `isDone` changes nothing else in its record. -/
theorem setDone_eq (h : LoopHolds state scanned rest) (hRunning : state.handler thread = .running) :
    ∃ node heap, state.heap.block (state.params thread) = some [node] ∧
      state.handlerStep (.setDone thread) thread = .ok (.none, state.moved heap thread .done) ∧
      heap.block (state.params thread) = some [⟨{ node.data with isDone := true }, node.next⟩] ∧
      ∀ other, other ≠ state.params thread → heap.block other = state.heap.block other := by
  obtain ⟨node, hBlock, _⟩ := h.node thread (by simp [HandlerAt.Listed, hRunning])
  obtain ⟨heap, hAssign, hSelf, hOther, _⟩ := assign_of_block (fun params => { params with isDone := true }) hBlock
  refine ⟨node, heap, hBlock, ?_, hSelf, hOther⟩
  simp only [AcceptLoop.handlerStep, hRunning, hAssign, bind, Except.bind]
  rfl

theorem transfer_eq (h : LoopHolds state scanned rest) (hRunning : state.handler thread = .running) :
    ∃ node, state.heap.block (state.params thread) = some [node] ∧
      state.handlerStep (.transfer thread) thread = .ok (.transferred thread node.data.threadFD, state) := by
  obtain ⟨node, hBlock, _⟩ := h.node thread (by simp [HandlerAt.Listed, hRunning])
  refine ⟨node, hBlock, ?_⟩
  simp only [AcceptLoop.handlerStep, hRunning, read_of_block hBlock, orFault, bind, Except.bind]
  rfl

/-- Only a running handler uses its record. -/
theorem transfer_running {seen : LoopEvent} {before after : AcceptLoop}
    (h : AcceptLoop.step (.transfer thread) before = .ok (seen, after)) :
    before.handler thread = .running ∧ after = before := by
  cases hHandler : before.handler thread with
  | running =>
      simp only [AcceptLoop.step, AcceptLoop.handlerStep, hHandler] at h
      obtain ⟨node, _, h⟩ := bind_ok_iff.mp h
      cases h
      exact ⟨rfl, rfl⟩
  | _ =>
      simp only [AcceptLoop.step, AcceptLoop.handlerStep, hHandler] at h
      cases h

/-- Only a handler that is done returns. -/
theorem exit_done {seen : LoopEvent} {before after : AcceptLoop}
    (h : AcceptLoop.step (.exit thread) before = .ok (seen, after)) : before.handler thread = .done := by
  cases hHandler : before.handler thread with
  | done => rfl
  | _ =>
      simp only [AcceptLoop.step, AcceptLoop.handlerStep, hHandler] at h
      cases h

theorem transfer_outcome (h : LoopHolds state scanned rest) (thread : Nat) :
    LoopOutcome state scanned rest (.transfer thread) (state.handlerStep (.transfer thread) thread) := by
  cases hHandler : state.handler thread with
  | running =>
      obtain ⟨node, hBlock, _⟩ := h.node thread (by simp [HandlerAt.Listed, hHandler])
      have hResult : state.handlerStep (.transfer thread) thread =
          .ok (.transferred thread node.data.threadFD, state) := by
        simp [AcceptLoop.handlerStep, hHandler, read_of_block hBlock, orFault, bind, Except.bind, pure, Except.pure]
      rw [hResult]
      exact .transferred thread _
  | _ =>
      simp only [AcceptLoop.handlerStep, hHandler]
      exact .order _

theorem setDone_outcome (h : LoopHolds state scanned rest) (thread : Nat) :
    LoopOutcome state scanned rest (.setDone thread) (state.handlerStep (.setDone thread) thread) := by
  cases hHandler : state.handler thread with
  | running =>
      have hListed : (state.handler thread).Listed := by simp [HandlerAt.Listed, hHandler]
      obtain ⟨node, hBlock, hID, _⟩ := h.node thread hListed
      obtain ⟨heap, hAssign, hSelf, hOther, hNext⟩ :=
        assign_of_block (fun params => { params with isDone := true }) hBlock
      have hResult : state.handlerStep (.setDone thread) thread =
          .ok (.none, state.moved heap thread .done) := by
        simp [AcceptLoop.handlerStep, hHandler, hAssign, bind, Except.bind, pure, Except.pure]
      rw [hResult]
      refine .done thread heap hHandler (h.advance hListed (by simp [HandlerAt.Listed]) (by simp) ?_ hOther hNext)
      exact ⟨node, _, hBlock, hSelf, hID, by simp⟩
  | _ =>
      simp only [AcceptLoop.handlerStep, hHandler]
      exact .order _

theorem exit_outcome (h : LoopHolds state scanned rest) (thread : Nat) :
    LoopOutcome state scanned rest (.exit thread) (state.handlerStep (.exit thread) thread) := by
  cases hHandler : state.handler thread with
  | done =>
      have hListed : (state.handler thread).Listed := by simp [HandlerAt.Listed, hHandler]
      obtain ⟨node, hBlock, hID, hDone⟩ := h.node thread hListed
      have hResult : state.handlerStep (.exit thread) thread =
          .ok (.none, state.moved state.heap thread .returned) := by
        simp [AcceptLoop.handlerStep, hHandler]
      rw [hResult]
      refine .exited thread hHandler
        (h.advance hListed (by simp [HandlerAt.Listed]) (by simp) ?_ (fun _ _ => rfl) rfl)
      exact ⟨node, node.data, hBlock, hBlock, hID, by simp [hDone, hHandler]⟩
  | _ =>
      simp only [AcceptLoop.handlerStep, hHandler]
      exact .order _

theorem step_outcome (h : LoopHolds state scanned rest) (action : LoopAction) :
    LoopOutcome state scanned rest action (AcceptLoop.step action state) := by
  cases action with
  | accept fd junk => exact acceptConnection_outcome h fd junk
  | test => exact testRecord_outcome h
  | join => exact joinThread_outcome h
  | transfer thread => exact transfer_outcome h thread
  | setDone thread => exact setDone_outcome h thread
  | exit thread => exact exit_outcome h thread

end Aesd
