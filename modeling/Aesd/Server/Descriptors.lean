import Aesd.Server.Reaping

/-! The descriptors of the connections. The accept loop, the handlers and the
loop over the list close none of them, so every record that is freed leaves a
connection open that nothing refers to any more. -/
namespace Aesd
open Memory Execution Linked

/-- The connection of every joined thread was closed once, and no more
connections are open than the list has records. -/
structure ConnectionsReturned (trace : LoopTrace) (state : AcceptLoop) : Prop where
  closed : ∀ thread record, .joined thread record ∈ trace.map Prod.snd →
    state.descriptors.closed.count thread = 1
  bounded : ∀ records, Chain state.heap state.head records →
    state.descriptors.holder.length ≤ records.length

/-- Nothing was closed; the open connections are those of the list and those
of the records that are gone. -/
structure DescriptorsHold (trace : LoopTrace) (state : AcceptLoop) (records : List Nat) : Prop where
  closed : state.descriptors.closed = []
  count : state.descriptors.holder.length = records.length + (reapedRecords trace).length
  joins : .join ∈ trace.map Prod.fst ↔ reapedRecords trace ≠ []

variable {state next : AcceptLoop} {scanned rest : List Nat} {fd connection : Nat}
  {action : LoopAction} {event : LoopEvent} {actions : List LoopAction} {trace : LoopTrace}
  {descriptors : Descriptors}

theorem Descriptors.accept_eq (h : state.descriptors.accept fd connection = some descriptors) :
    descriptors = { state.descriptors with holder := (fd, connection) :: state.descriptors.holder } := by
  unfold Descriptors.accept at h
  split at h
  · cases h
  · exact (Option.some.inj h).symm

namespace DescriptorsHold

/-- A step that is neither an accept nor a join. -/
theorem quiet {records after : List Nat} (h : DescriptorsHold trace state records)
    (hAction : action ≠ .join) (hEvent : ∀ thread record, event ≠ .joined thread record)
    (hDescriptors : next.descriptors = state.descriptors) (hLength : after.length = records.length) :
    DescriptorsHold (trace ++ [(action, event)]) next after := by
  have hSame : reapedRecords (trace ++ [(action, event)]) = reapedRecords trace := by
    cases event with
    | joined thread record => exact absurd rfl (hEvent thread record)
    | _ => simp [reapedRecords]
  refine ⟨hDescriptors ▸ h.closed, ?_, ?_⟩
  · rw [hDescriptors, hLength, hSame]
    exact h.count
  · rw [hSame, ← h.joins]
    simp [Ne.symm hAction]

theorem step (h : DescriptorsHold trace state (scanned ++ rest)) (hHolds : LoopHolds state scanned rest)
    (hStep : AcceptLoop.step action state = .ok (event, next)) :
    ∃ passed ahead, LoopHolds next passed ahead ∧
      DescriptorsHold (trace ++ [(action, event)]) next (passed ++ ahead) := by
  have hOutcome := step_outcome hHolds action
  rw [hStep] at hOutcome
  cases hOutcome with
  | accepted fd junk heap descriptors hMain hDescriptors hAfter =>
      have hSame : reapedRecords (trace ++ [(.accept fd junk, .accepted state.accepted state.heap.next fd)]) =
          reapedRecords trace := by simp [reapedRecords]
      have hAccept := Descriptors.accept_eq hDescriptors
      refine ⟨_, _, hAfter, by simp [hAccept, h.closed], ?_, ?_⟩
      · rw [hSame]
        simp only [hAccept, List.nil_append, List.length_cons, h.count]
        omega
      · rw [hSame, ← h.joins]
        simp
  | joined thread heap head hMain hReturned hAfter =>
      have hListed : (state.handler thread).Listed := by simp [HandlerAt.Listed, hReturned]
      have hRecord := hHolds.mem_of_listed hListed
      have hMore : reapedRecords (trace ++ [(.join, .joined thread (state.params thread))]) =
          reapedRecords trace ++ [state.params thread] := by simp [reapedRecords]
      refine ⟨_, _, hAfter, h.closed, ?_, ?_⟩
      · have hPositive := List.length_pos_of_mem hRecord
        have hErase := List.length_erase_of_mem hRecord
        have hCount : (state.reaped heap head thread).descriptors.holder.length =
          (scanned ++ rest).length + (reapedRecords trace).length := h.count
        rw [hMore, List.append_nil, hErase, hCount]
        simp only [List.length_append, List.length_singleton] at hPositive ⊢
        omega
      · simp [hMore]
  | ended _ _ hAfter =>
      exact ⟨_, _, hAfter, h.quiet (by simp) (by simp) rfl rfl⟩
  | found _ hAfter =>
      exact ⟨_, _, hAfter, h.quiet (by simp) (by simp) rfl rfl⟩
  | passed thread behind _ _ hRest _ hAfter =>
      exact ⟨_, _, hAfter, h.quiet (by simp) (by simp) rfl (by simp [hRest])⟩
  | transferred =>
      exact ⟨_, _, hHolds, h.quiet (by simp) (by simp) rfl rfl⟩
  | done _ _ _ hAfter =>
      exact ⟨_, _, hAfter, h.quiet (by simp) (by simp) rfl rfl⟩
  | exited _ _ hAfter =>
      exact ⟨_, _, hAfter, h.quiet (by simp) (by simp) rfl rfl⟩

end DescriptorsHold

theorem run_descriptors (hRun : run AcceptLoop.step actions .initial = .ok (trace, state)) :
    ∃ records, Chain state.heap state.head records ∧ DescriptorsHold trace state records := by
  have hStart : DescriptorsHold [] .initial ([] ++ []) := ⟨rfl, rfl, by simp [reapedRecords]⟩
  have hEnd : ∃ scanned rest, LoopHolds state scanned rest ∧
      DescriptorsHold trace state (scanned ++ rest) := by
    refine run_induct (fun trace state => ∃ scanned rest, LoopHolds state scanned rest ∧
      DescriptorsHold trace state (scanned ++ rest)) ?_ [] ⟨[], [], initial_holds, hStart⟩ along_true hRun
    rintro trace state action event next ⟨scanned, rest, hHolds, hDescriptors⟩ hStep _
    exact hDescriptors.step hHolds hStep
  obtain ⟨scanned, rest, hHolds, hDescriptors⟩ := hEnd
  exact ⟨_, hHolds.chain, hDescriptors⟩

/-- Connections are returned exactly as long as no record is. -/
theorem connectionsReturned_iff (hRun : run AcceptLoop.step actions .initial = .ok (trace, state)) :
    ConnectionsReturned trace state ↔ LoopAction.join ∉ actions := by
  obtain ⟨records, hChain, hDescriptors⟩ := run_descriptors hRun
  rw [← trace_actions hRun, hDescriptors.joins, not_not]
  constructor
  · intro hReturned
    have hLength := hReturned.bounded records hChain
    rw [hDescriptors.count] at hLength
    exact List.length_eq_zero_iff.mp (by omega)
  · intro hNone
    refine ⟨fun thread record hJoined => ?_, fun other hOther => ?_⟩
    · have hReaped := mem_reapedRecords.mpr ⟨thread, hJoined⟩
      rw [hNone] at hReaped
      cases hReaped
    · rw [hOther.unique hChain, hDescriptors.count, hNone]
      exact Nat.le_refl _

/-- The connection that a first client closes stays open after its record is
gone. -/
theorem not_connectionsReturned : ¬ ∀ actions trace state,
    run AcceptLoop.step actions .initial = .ok (trace, state) → ConnectionsReturned trace state := by
  intro hAll
  have hReturned := hAll [.accept 4 ⟨⟨true, 7, 9⟩, none⟩, .setDone 0, .test, .exit 0, .join] _ _ rfl
  have hCount := hReturned.closed 0 0 (by decide)
  revert hCount
  decide

/-- As long as the scan finds no finished thread, two connections have two
records. -/
theorem connectionsReturned_iff_two : ∃ trace state,
    run AcceptLoop.step [.accept 4 ⟨⟨true, 7, 9⟩, none⟩, .transfer 0, .test, .test,
      .accept 5 ⟨⟨true, 7, 9⟩, none⟩, .setDone 0] .initial = .ok (trace, state) ∧
    ConnectionsReturned trace state := by
  obtain ⟨⟨trace, state⟩, hRun⟩ : ∃ result, run AcceptLoop.step [.accept 4 ⟨⟨true, 7, 9⟩, none⟩,
    .transfer 0, .test, .test, .accept 5 ⟨⟨true, 7, 9⟩, none⟩, .setDone 0] .initial = .ok result := ⟨_, rfl⟩
  exact ⟨trace, state, hRun, (connectionsReturned_iff hRun).mpr (by simp)⟩

/-- A record of the list has the descriptor. -/
def AcceptLoop.Names (state : AcceptLoop) (fd : Nat) : Prop :=
  ∃ thread node, (state.handler thread).Listed ∧
    state.heap.block (state.params thread) = some [node] ∧ node.data.threadFD = fd

theorem Descriptors.lookup_close (descriptors : Descriptors) (fd other : Nat) :
    (descriptors.close fd).holder.lookup other =
      if other = fd then none else descriptors.holder.lookup other := by
  have hFilter : ∀ holder : List (Nat × Nat), (holder.filter fun entry => entry.1 ≠ fd).lookup other =
      if other = fd then none else holder.lookup other := by
    intro holder
    induction holder with
    | nil => simp
    | cons entry rest ih =>
        obtain ⟨used, connection⟩ := entry
        by_cases hUsed : used = fd
        · rw [List.filter_cons_of_neg (by simp [hUsed]), ih]
          by_cases hOther : other = fd
          · simp [hOther]
          · rw [List.lookup_cons, hUsed, beq_false_of_ne hOther]
        · rw [List.filter_cons_of_pos (by simp [hUsed]), List.lookup_cons, List.lookup_cons, ih]
          by_cases hOther : other = fd
          · simp [hOther, beq_false_of_ne (Ne.symm hUsed)]
          · simp [hOther]
  unfold Descriptors.close
  split
  · next hNone =>
    by_cases hOther : other = fd
    · simp [hOther, hNone]
    · simp [hOther]
  · exact hFilter _

theorem closeRecords_none (left : Nat) (h : state.head = none) :
    AcceptLoop.closeRecords left state = .ok state := by
  cases state
  subst h
  cases left <;> rfl

theorem closeRecords_some {record : Nat} (left : Nat) (h : state.head = some record) :
    AcceptLoop.closeRecords (left + 1) state = (do
      let node ← orFault (Linked.read state.heap state.head)
      let descriptors := state.descriptors.close node.data.threadFD
      let state ← pthreadJoin node.data.ID { state with descriptors }
      let state ← state.reap record
      AcceptLoop.closeRecords left state) := by
  cases state
  subst h
  rfl

/-- One round of the clean-up closes and takes out the first record. -/
theorem closeRecords_round {record : Nat} {behind : List Nat} (left : Nat)
    (h : LoopHolds state [] (record :: behind)) (hMain : state.main = .accepting)
    (hReturned : ∀ thread, (state.handler thread).Listed → state.handler thread = .returned) :
    ∃ next fd, AcceptLoop.closeRecords (left + 1) state = AcceptLoop.closeRecords left next ∧
      LoopHolds next [] behind ∧ next.main = .accepting ∧
      (∀ thread, (next.handler thread).Listed → next.handler thread = .returned) ∧
      next.descriptors = state.descriptors.close fd ∧
      ∀ other, state.Names other ↔ other = fd ∨ next.Names other := by
  obtain ⟨thread, hListed, rfl⟩ := (h.members record).mp (by simp)
  obtain ⟨node, hBlock, hID, _⟩ := h.node thread hListed
  have hHead : state.head = some (state.params thread) := h.chain.pointer_eq
  obtain ⟨closing, hClosing⟩ : ∃ closing : AcceptLoop,
    closing = { state with descriptors := state.descriptors.close node.data.threadFD } := ⟨_, rfl⟩
  have hOpen : LoopHolds closing [] (state.params thread :: behind) := hClosing ▸ h.with_descriptors _
  have hHandler : closing.handler = state.handler := by rw [hClosing]
  have hParams : closing.params = state.params := by rw [hClosing]
  have hHeap : closing.heap = state.heap := by rw [hClosing]
  obtain ⟨heap, head, hReap, hHolds, hData⟩ := hOpen.reap (hHandler ▸ hListed)
  have hAfter : LoopHolds (closing.reaped heap head thread) [] behind := by
    refine hHolds.scan (by simp [hParams]) (fun hTesting => by cases hTesting) fun hJoining => by cases hJoining
  refine ⟨closing.reaped heap head thread, node.data.threadFD, ?_, hAfter, rfl, fun other hOther => ?_,
    by rw [hClosing], fun fd => ?_⟩
  · have hRead : Linked.read state.heap state.head = some node := by
      rw [hHead]
      exact read_of_block hBlock
    have hJoin : pthreadJoin node.data.ID closing = .ok (closing.moved closing.heap thread .joined) := by
      simp [pthreadJoin, hID, hHandler, hReturned thread hListed]
    rw [closeRecords_some left hHead, hRead]
    simp only [orFault, bind, Except.bind]
    rw [← hClosing, hJoin, ← hParams]
    simp only [hReap]
    congr 1
    rw [hClosing]
    simp [hMain]
  · obtain ⟨hNe, hOther⟩ := listed_joined.mp hOther
    rw [hHandler] at hOther
    simpa only [Function.update_of_ne hNe, hHandler] using hReturned other hOther
  · simp only [AcceptLoop.Names, hHandler, hParams, listed_joined]
    rw [hHeap, hHandler, hParams] at hData
    constructor
    · rintro ⟨owner, same, hOwner, hSame, rfl⟩
      by_cases hThread : owner = thread
      · rw [hThread, hBlock] at hSame
        cases hSame
        exact .inl rfl
      · obtain ⟨link, hLink⟩ := hData owner hThread hOwner same hSame
        exact .inr ⟨owner, _, ⟨hThread, hOwner⟩, hLink, rfl⟩
    · rintro (rfl | ⟨owner, same, ⟨hThread, hOwner⟩, hSame, rfl⟩)
      · exact ⟨thread, node, hListed, hBlock, rfl⟩
      · obtain ⟨first, hFirst, _⟩ := h.node owner hOwner
        obtain ⟨link, hLink⟩ := hData owner hThread hOwner first hFirst
        rw [hSame] at hLink
        cases hLink
        exact ⟨owner, first, hOwner, hFirst, rfl⟩

/-- Where every thread of the list has returned, the clean-up closes the
descriptors that the records have and no other, and leaves no record. -/
theorem closeRecords_returns {records : List Nat} {left : Nat} (h : LoopHolds state [] records)
    (hMain : state.main = .accepting)
    (hReturned : ∀ thread, (state.handler thread).Listed → state.handler thread = .returned)
    (hLeft : records.length ≤ left) :
    ∃ after, AcceptLoop.closeRecords left state = .ok after ∧ LoopHolds after [] [] ∧
      ∀ fd, (state.Names fd → after.descriptors.holder.lookup fd = none) ∧
        (¬ state.Names fd → after.descriptors.holder.lookup fd = state.descriptors.holder.lookup fd) := by
  induction records generalizing state left with
  | nil =>
      refine ⟨state, closeRecords_none left h.chain, h, fun fd => ⟨?_, fun _ => rfl⟩⟩
      rintro ⟨thread, node, hListed, _⟩
      cases h.mem_of_listed hListed
  | cons record behind ih =>
      obtain ⟨left, rfl⟩ : ∃ less, left = less + 1 := ⟨left - 1, by simp only [List.length_cons] at hLeft; omega⟩
      obtain ⟨next, closed, hRound, hNext, hNextMain, hNextReturned, hClosed, hNames⟩ :=
        closeRecords_round left h hMain hReturned
      obtain ⟨after, hRest, hAfter, hDescriptors⟩ :=
        ih hNext hNextMain hNextReturned (Nat.le_of_succ_le_succ hLeft)
      refine ⟨after, hRound.trans hRest, hAfter, fun fd => ⟨fun hFd => ?_, fun hFd => ?_⟩⟩
      · by_cases hLater : next.Names fd
        · exact (hDescriptors fd).1 hLater
        · rw [(hDescriptors fd).2 hLater, hClosed, Descriptors.lookup_close]
          simp [((hNames fd).mp hFd).resolve_right hLater]
      · obtain ⟨hOther, hLater⟩ := not_or.mp (mt (hNames fd).mpr hFd)
        rw [(hDescriptors fd).2 hLater, hClosed, Descriptors.lookup_close, if_neg hOther]

/-- `exitFunction` would end where every thread of the list has returned. Of
the connections it returns those whose records are in the list. -/
theorem exitFunction_returns (h : LoopHolds state scanned rest) (hMain : state.main = .accepting)
    (hReturned : ∀ thread, (state.handler thread).Listed → state.handler thread = .returned)
    (fileDescriptor socketAcceptDescriptor socketDescriptor : Nat) :
    ∃ after, state.exitFunction fileDescriptor socketAcceptDescriptor socketDescriptor = .ok after ∧
      LoopHolds after [] [] ∧ ∀ fd, (state.Names fd → after.descriptors.holder.lookup fd = none) ∧
        (fd ∉ [fileDescriptor, socketAcceptDescriptor, socketDescriptor] → ¬ state.Names fd →
          after.descriptors.holder.lookup fd = state.descriptors.holder.lookup fd) := by
  have hFirst : LoopHolds state [] (scanned ++ rest) :=
    h.scan (List.nil_append _) (fun hTesting => by cases hMain.symm.trans hTesting)
      fun hJoining => by cases hMain.symm.trans hJoining
  have hClosed := hFirst.with_descriptors
    (((state.descriptors.close fileDescriptor).close socketAcceptDescriptor).close socketDescriptor)
  obtain ⟨after, hResult, hAfter, hDescriptors⟩ := closeRecords_returns hClosed hMain hReturned h.length_le
  refine ⟨after, hResult, hAfter, fun fd => ⟨(hDescriptors fd).1, fun hOther hFd => ?_⟩⟩
  obtain ⟨hFile, hAccept, hSocket⟩ : fd ≠ fileDescriptor ∧ fd ≠ socketAcceptDescriptor ∧
    fd ≠ socketDescriptor := by simpa using hOther
  rw [(hDescriptors fd).2 hFd]
  simp only [Descriptors.lookup_close, hFile, hAccept, hSocket, ↓reduceIte]

end Aesd
