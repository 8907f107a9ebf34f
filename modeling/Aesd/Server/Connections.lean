import Aesd.Server.Descriptors

/-! The connections of the threads. A thread receives and sends on the
descriptor that came with its own connection, and no other connection of the
run has it. -/
namespace Aesd
open Memory Execution Linked

/-- What was accepted is still open under its descriptor, and the record of a
thread has the one that was accepted for it. -/
structure ConnectionsHold (trace : LoopTrace) (state : AcceptLoop) : Prop where
  holder : ∀ thread record fd, .accepted thread record fd ∈ trace.map Prod.snd →
    state.descriptors.holder.lookup fd = some thread
  node : ∀ thread, (state.handler thread).Listed → ∃ node record,
    state.heap.block (state.params thread) = some [node] ∧
      .accepted thread record node.data.threadFD ∈ trace.map Prod.snd

variable {state next : AcceptLoop} {scanned rest : List Nat} {thread fd : Nat} {action : LoopAction}
  {event : LoopEvent} {actions : List LoopAction} {trace : LoopTrace} {heap : Heap ListDataDef}
  {descriptors : Descriptors}

/-- The thread that is joined is the one of the record that the scan found. -/
theorem joinThread_pointer {record : Nat} (h : LoopHolds state scanned rest) (hMain : state.main = .joining)
    (hStep : state.joinThread = .ok (.joined thread record, next)) :
    state.dataPointer = some (state.params thread) := by
  obtain ⟨owner, hListed, _, hPointer⟩ := h.joining hMain
  obtain ⟨node, hBlock, hID, _⟩ := h.node owner hListed
  simp only [AcceptLoop.joinThread, hMain, hPointer, read_of_block hBlock, orFault] at hStep
  obtain ⟨_, hSame, hStep⟩ := bind_ok_iff.mp hStep
  cases hSame
  obtain ⟨joined, _, hStep⟩ := bind_ok_iff.mp hStep
  obtain ⟨reaped, _, hStep⟩ := bind_ok_iff.mp hStep
  cases hStep
  rw [hPointer, hID]

theorem listed_of_update {handler : Nat → HandlerAt} {phase : HandlerAt} {other : Nat}
    (hListed : (handler thread).Listed) (h : (Function.update handler thread phase other).Listed) :
    (handler other).Listed := by
  by_cases hSame : other = thread
  · rw [hSame]
    exact hListed
  · rwa [Function.update_of_ne hSame] at h

namespace ConnectionsHold

/-- A step that neither opens a connection nor writes a descriptor. -/
theorem kept (h : ConnectionsHold trace state) (hDescriptors : next.descriptors = state.descriptors)
    (hParams : next.params = state.params)
    (hListed : ∀ thread, (next.handler thread).Listed → (state.handler thread).Listed)
    (hNode : ∀ thread, (next.handler thread).Listed → ∀ node, state.heap.block (state.params thread) = some [node] →
      ∃ same, next.heap.block (state.params thread) = some [same] ∧ same.data.threadFD = node.data.threadFD)
    (hEvent : ∀ thread record fd, event ≠ .accepted thread record fd) :
    ConnectionsHold (trace ++ [(action, event)]) next := by
  have hEvents : ∀ thread record fd, .accepted thread record fd ∈ (trace ++ [(action, event)]).map Prod.snd ↔
      .accepted thread record fd ∈ trace.map Prod.snd := by
    intro thread record fd
    rw [mem_events_concat]
    exact or_iff_left (Ne.symm (hEvent thread record fd))
  refine ⟨fun thread record fd hAccepted => ?_, fun thread hThread => ?_⟩
  · rw [hDescriptors]
    exact h.holder thread record fd ((hEvents thread record fd).mp hAccepted)
  · obtain ⟨node, record, hBlock, hAccepted⟩ := h.node thread (hListed thread hThread)
    obtain ⟨same, hSame, hFd⟩ := hNode thread hThread node hBlock
    refine ⟨same, record, by rw [hParams]; exact hSame, ?_⟩
    rw [hFd]
    exact (hEvents _ _ _).mpr hAccepted

/-- A new connection has a descriptor that no other one has. -/
theorem inserted (h : ConnectionsHold trace state) (hHolds : LoopHolds state scanned rest)
    (hDescriptors : state.descriptors.accept fd state.accepted = some descriptors)
    (hBlock : heap.block state.heap.next = some [⟨⟨false, state.accepted, fd⟩, state.head⟩])
    (hOther : ∀ other, other ≠ state.heap.next → heap.block other = state.heap.block other) :
    ConnectionsHold (trace ++ [(action, .accepted state.accepted state.heap.next fd)])
      (state.inserted heap descriptors) := by
  have hFree : state.descriptors.holder.lookup fd = none := by
    unfold Descriptors.accept at hDescriptors
    split at hDescriptors
    · cases hDescriptors
    · next hNone => exact Option.not_isSome_iff_eq_none.mp hNone
  have hAfter := Descriptors.accept_eq hDescriptors
  refine ⟨fun thread record other hAccepted => ?_, fun thread hListed => ?_⟩
  · rw [hAfter]
    dsimp only
    rcases mem_events_concat.mp hAccepted with hBefore | hNow
    · have hHolder := h.holder thread record other hBefore
      have hNe : other ≠ fd := by
        rintro rfl
        cases hFree.symm.trans hHolder
      rw [List.lookup_cons, beq_false_of_ne hNe]
      exact hHolder
    · cases hNow
      rw [List.lookup_cons_self]
  · by_cases hNew : thread = state.accepted
    · subst hNew
      refine ⟨_, _, by simpa only [Function.update_self] using hBlock, mem_events_concat.mpr (.inr rfl)⟩
    · simp only [Function.update_of_ne hNew] at hListed ⊢
      obtain ⟨node, record, hNode, hAccepted⟩ := h.node thread hListed
      refine ⟨node, record, ?_, mem_events_concat.mpr (.inl hAccepted)⟩
      rw [hOther _ (Nat.ne_of_lt (hHolds.fresh thread hListed.1))]
      exact hNode

theorem step (hHolds : LoopHolds state scanned rest) (h : ConnectionsHold trace state)
    (hStep : AcceptLoop.step action state = .ok (event, next)) :
    ConnectionsHold (trace ++ [(action, event)]) next := by
  have hOutcome := step_outcome hHolds action
  have hResult := hStep
  rw [hStep] at hOutcome
  cases hOutcome with
  | accepted fd junk heap descriptors hMain hDescriptors =>
      obtain ⟨same, hAccept, hBlock, hOther, _⟩ := @acceptConnection_eq _ _ junk _ hMain hDescriptors
      rw [Prod.mk.inj (Except.ok.inj (hResult.symm.trans hAccept)) |>.2]
      exact h.inserted hHolds hDescriptors hBlock hOther
  | ended => exact h.kept rfl rfl (fun _ => id) (fun _ _ node hBlock => ⟨node, hBlock, rfl⟩) (by simp)
  | found => exact h.kept rfl rfl (fun _ => id) (fun _ _ node hBlock => ⟨node, hBlock, rfl⟩) (by simp)
  | passed => exact h.kept rfl rfl (fun _ => id) (fun _ _ node hBlock => ⟨node, hBlock, rfl⟩) (by simp)
  | transferred => exact h.kept rfl rfl (fun _ => id) (fun _ _ node hBlock => ⟨node, hBlock, rfl⟩) (by simp)
  | joined thread heap head hMain hReturned =>
      have hPointer := joinThread_pointer hHolds hMain hResult
      obtain ⟨same, first, hJoin, hData⟩ := joinThread_eq hHolds hMain hPointer hReturned
      rw [Prod.mk.inj (Except.ok.inj (hResult.symm.trans hJoin)) |>.2]
      refine h.kept rfl rfl (fun other hListed => (listed_joined.mp hListed).2) (fun other hListed node hBlock => ?_)
        (by simp)
      obtain ⟨hNe, hOther⟩ := listed_joined.mp hListed
      obtain ⟨link, hLink⟩ := hData other hNe hOther node hBlock
      exact ⟨⟨node.data, link⟩, hLink, rfl⟩
  | done thread heap hRunning =>
      obtain ⟨old, same, hOld, hDone, hSelf, hOther⟩ := setDone_eq hHolds hRunning
      rw [Prod.mk.inj (Except.ok.inj (hResult.symm.trans hDone)) |>.2]
      refine h.kept rfl rfl (fun other hListed => ?_) (fun other hListed node hBlock => ?_) (by simp)
      · exact listed_of_update (by simp [HandlerAt.Listed, hRunning]) hListed
      · by_cases hRecord : state.params other = state.params thread
        · rw [hRecord, hOld] at hBlock
          cases hBlock
          exact ⟨⟨{ old.data with isDone := true }, old.next⟩, by rw [hRecord]; exact hSelf, rfl⟩
        · exact ⟨node, (hOther _ hRecord).trans hBlock, rfl⟩
  | exited thread hDone =>
      refine h.kept rfl rfl (fun other hOther => ?_) (fun _ _ node hBlock => ⟨node, hBlock, rfl⟩) (by simp)
      exact listed_of_update (by simp [HandlerAt.Listed, hDone]) hOther

end ConnectionsHold

theorem run_connections (hRun : run AcceptLoop.step actions .initial = .ok (trace, state)) :
    (∃ scanned rest, LoopHolds state scanned rest) ∧ ConnectionsHold trace state := by
  refine run_induct (fun trace state => (∃ scanned rest, LoopHolds state scanned rest) ∧
    ConnectionsHold trace state) ?_ [] ⟨⟨[], [], initial_holds⟩, by simp, fun thread hListed => absurd rfl hListed.1⟩
    along_true hRun
  rintro trace state action event next ⟨⟨scanned, rest, hHolds⟩, hConnections⟩ hStep _
  have hOutcome := step_outcome hHolds action
  rw [hStep] at hOutcome
  refine ⟨?_, hConnections.step hHolds hStep⟩
  cases hOutcome with
  | transferred => exact ⟨_, _, hHolds⟩
  | _ => exact ⟨_, _, by assumption⟩

/-- Whatever a thread receives or sends goes over the connection that it was
created for: the descriptor that it uses came with its own `accept`, and no
other connection of the run has it. -/
theorem connections_separate (actions : List LoopAction) (trace before after : LoopTrace) (action : LoopAction)
    (thread fd : Nat) (state : AcceptLoop)
    (hRun : run AcceptLoop.step actions .initial = .ok (trace, state))
    (hTrace : trace = before ++ (action, .transferred thread fd) :: after) :
    (∃ record, .accepted thread record fd ∈ before.map Prod.snd) ∧
      ∀ other record, .accepted other record fd ∈ trace.map Prod.snd → other = thread := by
  obtain ⟨_, hConnections⟩ := run_connections hRun
  subst hTrace
  obtain ⟨middle, next, hBefore, hStep⟩ := run_split hRun
  obtain ⟨⟨scanned, rest, hHolds⟩, hThen⟩ := run_connections hBefore
  have hAccepted : ∃ record, .accepted thread record fd ∈ before.map Prod.snd := by
    have hOutcome := step_outcome hHolds action
    have hResult := hStep
    rw [hStep] at hOutcome
    cases hOutcome with
    | transferred =>
        obtain ⟨hRunning, _⟩ := transfer_running hResult
        obtain ⟨node, hBlock, hTransfer⟩ := transfer_eq hHolds hRunning
        obtain ⟨same, record, hSame, hRecord⟩ := hThen.node thread (by simp [HandlerAt.Listed, hRunning])
        cases hBlock.symm.trans hSame
        cases hResult.symm.trans hTransfer
        exact ⟨record, hRecord⟩
  refine ⟨hAccepted, fun other record hOther => ?_⟩
  obtain ⟨mine, hMine⟩ := hAccepted
  have hHolder := hConnections.holder thread mine fd (by
    rw [List.map_append]
    exact List.mem_append_left _ hMine)
  exact Option.some.inj ((hConnections.holder other record fd hOther).symm.trans hHolder)

/-- Two connections at a time, each used by its own thread. -/
theorem connections_separate_two : ∃ trace state,
    run AcceptLoop.step [.accept 4 ⟨⟨true, 7, 9⟩, none⟩, .test, .test, .accept 5 ⟨⟨true, 7, 9⟩, none⟩,
      .transfer 0, .transfer 1] .initial = .ok (trace, state) ∧
    ∀ other record, .accepted other record 4 ∈ trace.map Prod.snd → other = 0 := by
  obtain ⟨trace, state, hRun, hTrace⟩ : ∃ trace state,
      run AcceptLoop.step [.accept 4 ⟨⟨true, 7, 9⟩, none⟩, .test, .test, .accept 5 ⟨⟨true, 7, 9⟩, none⟩,
        .transfer 0, .transfer 1] .initial = .ok (trace, state) ∧
      trace = [(.accept 4 ⟨⟨true, 7, 9⟩, none⟩, .accepted 0 0 4), (.test, .none), (.test, .none),
        (.accept 5 ⟨⟨true, 7, 9⟩, none⟩, .accepted 1 1 5)] ++
          (.transfer 0, .transferred 0 4) :: [(.transfer 1, .transferred 1 5)] := ⟨_, _, rfl, rfl⟩
  exact ⟨trace, state, hRun, (connections_separate _ trace _ _ _ 0 4 state hRun hTrace).2⟩

end Aesd
