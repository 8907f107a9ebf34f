import Aesd.Server.Reaping
import Aesd.Server.Serial

/-! The whole server: the main thread accepts and reaps while its handler
threads receive, take their turns with the device and return. It runs the
accept loop and the handlers, each exactly as they run on their own. -/
namespace Aesd
open Kernel Memory Execution Delimited

/-- What a handler thread has: what it received so far, or its packet. -/
inductive Stage where
  | receiving (state : Receiving)
  | handling (packet : Packet)

/-- The local variables of a handler at its start. -/
def Receiving.start : Receiving := ⟨List.replicate BUFFER_SIZE 0, 0⟩

structure Sessions where
  loop : AcceptLoop
  server : Server
  stage : Nat → Stage

def Sessions.initial : Sessions := ⟨AcceptLoop.initial, Server.initial, fun _ => .receiving .start⟩

/-- One step of the main thread or of a handler thread. -/
inductive SessionAction where
  | accept (fd : Nat) (junk : ListDataDef)
  | test
  | join
  | recv (thread : Nat) (event : Recv)
  | call (thread : Nat) (call : Call)
  | setDone (thread : Nat)
  | exit (thread : Nat)

/-- Why a step is not taken: the code does not come to it, it waits for a
thread or for the mutex, it accesses what it must not, the device does not
return, or the process has ended. -/
inductive SessionHalt where
  | order
  | waits
  | mutex
  | fault
  | buffer (stop : ServerStop)
  | device (stop : Stop)
  | exited
  deriving DecidableEq, Repr

inductive SessionEvent where
  | loop (event : LoopEvent)
  | reply (reply : Reply)
  deriving DecidableEq, Repr

/-- The string in the output buffer, as long as an `int` counts it. -/
def packetOf (outputBuffer : List Byte) : Except SessionHalt Stage :=
  if h : ((cstring outputBuffer).length : Int) < INT_MAX then
    .ok (.handling ⟨cstring outputBuffer, not_mem_before, h⟩)
  else .error (.buffer .counter)

/-- One round of the receive loop. -/
def receive (junk : Nat → Nat → Byte) : Recv → Receiving → Except SessionHalt Stage
  | .failed, _ => .error .exited
  | .closed, state => packetOf state.outputBuffer
  | .data chunk, state =>
      match receiveChunk junk chunk state with
      | .error stop => .error (.buffer stop)
      | .ok (true, state) => packetOf state.outputBuffer
      | .ok (false, state) => .ok (.receiving state)

/-- The packet of a thread; a line that nobody sees before it has one. -/
def Stage.packet : Stage → Packet
  | .handling packet => packet
  | .receiving _ => ⟨[newline], by decide, by decide⟩

namespace Sessions

/-- A step that the thread records see. -/
def inLoop (action : LoopAction) (state : Sessions) : Except SessionHalt (SessionEvent × Sessions) :=
  match AcceptLoop.step action state.loop with
  | .error .order => .error .order
  | .error .waits => .error .waits
  | .error .fault => .error .fault
  | .ok (event, loop) => .ok (.loop event, { state with loop })

/-- A call of a thread that has its packet. -/
def inHandler (thread : Nat) (call : Call) (state : Sessions) : Except SessionHalt (SessionEvent × Sessions) :=
  match threadHandler (fun thread => (state.stage thread).packet) ⟨thread, call⟩ state.server with
  | .error .order => .error .order
  | .error .mutex => .error .mutex
  | .error (.device stop) => .error (.device stop)
  | .ok (reply, server) => .ok (.reply reply, { state with server })

/-- A handler sets `isDone` behind its last use of the stream and in front of
the unlock. Where it receives or sends it uses its record. -/
def step (junk : Nat → Nat → Nat → Byte) : Machine SessionHalt SessionAction SessionEvent Sessions
  | .accept fd memory, state => state.inLoop (.accept fd memory)
  | .test, state => state.inLoop .test
  | .join, state => state.inLoop .join
  | .recv thread event, state =>
      match state.stage thread with
      | .handling _ => .error .order
      | .receiving received => do
          let (answer, state) ← state.inLoop (.transfer thread)
          let stage ← receive (junk thread) event received
          return (answer, { state with stage := Function.update state.stage thread stage })
  | .call thread call, state =>
      match state.stage thread, call with
      | .receiving _, _ => .error .order
      | .handling _, .send => do
          let (_, state) ← state.inLoop (.transfer thread)
          state.inHandler thread .send
      | .handling _, .unlock =>
          if state.loop.handler thread = .done then state.inHandler thread .unlock else .error .order
      | .handling _, call =>
          if state.loop.handler thread = .running then state.inHandler thread call else .error .order
  | .setDone thread, state =>
      if state.server.phase thread = .closed then state.inLoop (.setDone thread) else .error .order
  | .exit thread, state =>
      if state.server.phase thread = .finished then state.inLoop (.exit thread) else .error .order

end Sessions

/-- What the thread records see of an action. -/
def SessionAction.inLoop : SessionAction → List LoopAction
  | .accept fd junk => [.accept fd junk]
  | .test => [.test]
  | .join => [.join]
  | .recv thread _ => [.transfer thread]
  | .call thread .send => [.transfer thread]
  | .call _ _ => []
  | .setDone thread => [.setDone thread]
  | .exit thread => [.exit thread]

/-- What the mutex and the device see of an action. -/
def SessionAction.inHandler : SessionAction → List Action
  | .call thread request => [⟨thread, request⟩]
  | _ => []

/-- What a thread received. -/
def receivedBy (thread : Nat) (actions : List SessionAction) : List Recv :=
  actions.filterMap fun action => match action with
    | .recv other event => if other = thread then some event else none
    | _ => none

/-- The packets that the threads have. -/
def Sessions.packet (state : Sessions) (thread : Nat) : Packet := (state.stage thread).packet

/-- How far a handler is for its record, in its code and at the mutex. -/
inductive Stands : HandlerAt → Stage → Phase → Prop where
  | absent : Stands .absent (.receiving .start) .ready
  | receiving (received : Receiving) : Stands .running (.receiving received) .ready
  | handling (packet : Packet) (phase : Phase) (hPhase : phase ≠ .finished) :
      Stands .running (.handling packet) phase
  | closed (packet : Packet) : Stands .done (.handling packet) .closed
  | unlocked (packet : Packet) : Stands .done (.handling packet) .finished
  | returned (packet : Packet) : Stands .returned (.handling packet) .finished
  | joined (packet : Packet) : Stands .joined (.handling packet) .finished

/-- The stage of a handler is what the receive loop made of what it received. -/
inductive Received (junk : Nat → Nat → Byte) (events : List Recv) : Stage → Prop where
  | receiving (received : Receiving)
      (hMore : ∀ more, receiveLoop junk (events ++ more) .start = receiveLoop junk more received) :
      Received junk events (.receiving received)
  | handling (packet : Packet) (out : List Byte) (hOut : assemble junk events = .ok out)
      (hBytes : packet.bytes = cstring out) : Received junk events (.handling packet)

/-- What a run of the whole server is for each of its parts. -/
structure SessionsHold (junk : Nat → Nat → Nat → Byte) (actions : List SessionAction) (state : Sessions) :
    Prop where
  loop : ∃ trace, run AcceptLoop.step (actions.flatMap SessionAction.inLoop) .initial = .ok (trace, state.loop)
  server : ∃ trace, run (threadHandler state.packet) (actions.flatMap SessionAction.inHandler) .initial =
    .ok (trace, state.server)
  called : ∀ action ∈ actions.flatMap SessionAction.inHandler,
    ∃ packet, state.stage action.thread = .handling packet
  stands : ∀ thread, Stands (state.loop.handler thread) (state.stage thread) (state.server.phase thread)
  received : ∀ thread, Received (junk thread) (receivedBy thread actions) (state.stage thread)

variable {junk : Nat → Nat → Nat → Byte} {state next : Sessions} {action : SessionAction}
  {actions : List SessionAction} {event : SessionEvent} {trace : List (SessionAction × SessionEvent)}
  {thread : Nat} {call : Call} {received : Receiving} {recv : Recv} {stage : Stage} {packet : Packet}

theorem inLoop_ok_iff {loopAction : LoopAction} : state.inLoop loopAction = .ok (event, next) ↔
    ∃ answer loop, AcceptLoop.step loopAction state.loop = .ok (answer, loop) ∧ event = .loop answer ∧
      next = { state with loop } := by
  unfold Sessions.inLoop
  split
  · next hStop => simp [hStop]
  · next hStop => simp [hStop]
  · next hStop => simp [hStop]
  · next answer loop hStep =>
    rw [hStep]
    constructor
    · intro h
      cases h
      exact ⟨answer, loop, rfl, rfl, rfl⟩
    · rintro ⟨_, _, hSame, rfl, rfl⟩
      cases hSame
      rfl

theorem inHandler_ok_iff : state.inHandler thread call = .ok (event, next) ↔
    ∃ reply server, threadHandler state.packet ⟨thread, call⟩ state.server = .ok (reply, server) ∧
      event = .reply reply ∧ next = { state with server } := by
  have hPacket : (fun thread => (state.stage thread).packet) = state.packet := rfl
  unfold Sessions.inHandler
  rw [hPacket]
  split
  · next hStop => simp [hStop]
  · next hStop => simp [hStop]
  · next hStop => simp [hStop]
  · next reply server hStep =>
    rw [hStep]
    constructor
    · intro h
      cases h
      exact ⟨reply, server, rfl, rfl, rfl⟩
    · rintro ⟨_, _, hSame, rfl, rfl⟩
      cases hSame
      rfl

/-- Everything that a step which is taken does. -/
inductive SessionStep (junk : Nat → Nat → Nat → Byte) (state : Sessions) :
    SessionAction → SessionEvent → Sessions → Prop where
  | main (action : SessionAction) (loopAction : LoopAction) (event : LoopEvent) (loop : AcceptLoop)
      (hLoop : AcceptLoop.step loopAction state.loop = .ok (event, loop))
      (hSeen : action.inLoop = [loopAction]) (hUnseen : action.inHandler = [])
      (hReceived : ∀ thread, receivedBy thread [action] = [])
      (hDone : ∀ thread, loopAction = .setDone thread → state.server.phase thread = .closed)
      (hExit : ∀ thread, loopAction = .exit thread → state.server.phase thread = .finished)
      (hTransfer : ∀ thread, loopAction ≠ .transfer thread) :
      SessionStep junk state action (.loop event) { state with loop }
  | recv (thread : Nat) (recv : Recv) (received : Receiving) (stage : Stage) (event : LoopEvent)
      (loop : AcceptLoop) (hStage : state.stage thread = .receiving received)
      (hLoop : AcceptLoop.step (.transfer thread) state.loop = .ok (event, loop))
      (hReceive : receive (junk thread) recv received = .ok stage) :
      SessionStep junk state (.recv thread recv) (.loop event)
        { state with loop, stage := Function.update state.stage thread stage }
  | call (thread : Nat) (call : Call) (packet : Packet) (reply : Reply) (server : Server) (loop : AcceptLoop)
      (hStage : state.stage thread = .handling packet)
      (hLoop : ∃ events, run AcceptLoop.step (SessionAction.call thread call).inLoop state.loop = .ok (events, loop))
      (hHandler : state.loop.handler thread = .running ∧ call ≠ .unlock ∨
        state.loop.handler thread = .done ∧ call = .unlock)
      (hServer : threadHandler state.packet ⟨thread, call⟩ state.server = .ok (reply, server)) :
      SessionStep junk state (.call thread call) (.reply reply) { state with loop, server }

/-- A step of the main thread, or one at the end of a handler. -/
theorem step_main {loopAction : LoopAction} (hStep : state.inLoop loopAction = .ok (event, next))
    (hSeen : action.inLoop = [loopAction]) (hUnseen : action.inHandler = [])
    (hReceived : ∀ thread, receivedBy thread [action] = [])
    (hDone : ∀ thread, loopAction = .setDone thread → state.server.phase thread = .closed)
    (hExit : ∀ thread, loopAction = .exit thread → state.server.phase thread = .finished)
    (hTransfer : ∀ thread, loopAction ≠ .transfer thread) : SessionStep junk state action event next := by
  obtain ⟨answer, loop, hLoop, rfl, rfl⟩ := inLoop_ok_iff.mp hStep
  exact .main action loopAction answer loop hLoop hSeen hUnseen hReceived hDone hExit hTransfer

/-- A call of a handler that does not use its record. -/
theorem step_call (hStage : state.stage thread = .handling packet)
    (hSeen : (SessionAction.call thread call).inLoop = [])
    (hHandler : state.loop.handler thread = .running ∧ call ≠ .unlock ∨
      state.loop.handler thread = .done ∧ call = .unlock)
    (hStep : state.inHandler thread call = .ok (event, next)) :
    SessionStep junk state (.call thread call) event next := by
  obtain ⟨reply, server, hServer, rfl, rfl⟩ := inHandler_ok_iff.mp hStep
  exact .call thread call packet reply server state.loop hStage ⟨[], by rw [hSeen]; rfl⟩ hHandler hServer

theorem step_cases (h : Sessions.step junk action state = .ok (event, next)) :
    SessionStep junk state action event next := by
  cases action with
  | accept fd memory =>
      exact step_main h rfl rfl (fun _ => rfl) (by simp) (by simp) (by simp)
  | test => exact step_main h rfl rfl (fun _ => rfl) (by simp) (by simp) (by simp)
  | join => exact step_main h rfl rfl (fun _ => rfl) (by simp) (by simp) (by simp)
  | setDone thread =>
      simp only [Sessions.step] at h
      split at h
      · next hClosed =>
        exact step_main h rfl rfl (fun _ => rfl) (by simpa using hClosed) (by simp) (by simp)
      · cases h
  | exit thread =>
      simp only [Sessions.step] at h
      split at h
      · next hFinished =>
        exact step_main h rfl rfl (fun _ => rfl) (by simp) (by simpa using hFinished) (by simp)
      · cases h
  | recv thread recv =>
      simp only [Sessions.step] at h
      split at h
      · cases h
      · next received hStage =>
        obtain ⟨⟨answer, inLoop⟩, hLoop, h⟩ := bind_ok_iff.mp h
        obtain ⟨stage, hReceive, h⟩ := bind_ok_iff.mp h
        obtain ⟨seen, loop, hStep, rfl, rfl⟩ := inLoop_ok_iff.mp hLoop
        cases h
        exact .recv thread recv received stage seen loop hStage hStep hReceive
  | call thread call =>
      cases hStage : state.stage thread with
      | receiving received =>
          simp only [Sessions.step, hStage] at h
          cases h
      | handling packet =>
          cases call with
          | send =>
              simp only [Sessions.step, hStage] at h
              obtain ⟨⟨answer, middle⟩, hLoop, h⟩ := bind_ok_iff.mp h
              obtain ⟨seen, loop, hStep, rfl, rfl⟩ := inLoop_ok_iff.mp hLoop
              obtain ⟨reply, server, hServer, rfl, rfl⟩ := inHandler_ok_iff.mp h
              exact .call thread .send packet reply server loop hStage ⟨_, run_cons_of_ok hStep run_nil⟩
                (Or.inl ⟨(transfer_running hStep).1, by simp⟩) hServer
          | unlock =>
              simp only [Sessions.step, hStage] at h
              split at h
              · next hDone => exact step_call hStage rfl (Or.inr ⟨hDone, rfl⟩) h
              · cases h
          | _ =>
              simp only [Sessions.step, hStage] at h
              split at h
              · next hRunning => exact step_call hStage rfl (Or.inl ⟨hRunning, by simp⟩) h
              · cases h

/-- What an action may do to the handler of a thread, as its record sees it. -/
inductive HandlerMoves (action : LoopAction) (thread : Nat) : HandlerAt → HandlerAt → Prop where
  | same (handler : HandlerAt) : HandlerMoves action thread handler handler
  | started : HandlerMoves action thread .absent .running
  | done (hAction : action = .setDone thread) : HandlerMoves action thread .running .done
  | returned (hAction : action = .exit thread) : HandlerMoves action thread .done .returned
  | joined : HandlerMoves action thread .returned .joined

theorem handlerMoves_update {handler : Nat → HandlerAt} {other : Nat} {phase : HandlerAt}
    {loopAction : LoopAction} (h : HandlerMoves loopAction thread (handler thread) phase) :
    HandlerMoves loopAction other (handler other) (Function.update handler thread phase other) := by
  by_cases hSame : other = thread
  · subst hSame
    rwa [Function.update_self]
  · rw [Function.update_of_ne hSame]
    exact .same _

theorem loop_moves {scanned rest : List Nat} {before after : AcceptLoop} {loopAction : LoopAction}
    {seen : LoopEvent} (hHolds : LoopHolds before scanned rest)
    (hStep : AcceptLoop.step loopAction before = .ok (seen, after)) (other : Nat) :
    HandlerMoves loopAction other (before.handler other) (after.handler other) := by
  have hOutcome := step_outcome hHolds loopAction
  rw [hStep] at hOutcome
  cases hOutcome with
  | accepted =>
      refine handlerMoves_update ?_
      rw [(hHolds.absent _).mpr (Nat.le_refl _)]
      exact .started
  | joined thread _ _ _ hReturned =>
      refine handlerMoves_update ?_
      rw [hReturned]
      exact .joined
  | done thread _ hRunning =>
      refine handlerMoves_update ?_
      rw [hRunning]
      exact .done rfl
  | exited thread hDone =>
      refine handlerMoves_update ?_
      rw [hDone]
      exact .returned rfl
  | _ => exact .same _

theorem packetOf_ok {out : List Byte} (h : packetOf out = .ok stage) :
    ∃ packet : Packet, stage = .handling packet ∧ packet.bytes = cstring out := by
  unfold packetOf at h
  split at h
  · cases h
    exact ⟨_, rfl, rfl⟩
  · cases h

/-- An output buffer that the receive loop ends with is short enough. -/
theorem packetOf_of_assemble {memory : Nat → Nat → Byte} {events : List Recv} {out : List Byte}
    (h : assemble memory events = .ok out) : ∃ stage, packetOf out = .ok stage := by
  obtain ⟨packet, hBytes⟩ := packet_of_assemble h
  have hShort := packet.short
  rw [hBytes] at hShort
  exact ⟨_, dif_pos hShort⟩

namespace Received
variable {memory : Nat → Nat → Byte} {events : List Recv}

/-- One round takes the handler on as the whole loop goes on. -/
theorem step (h : Received memory events (.receiving received))
    (hReceive : receive memory recv received = .ok stage) : Received memory (events ++ [recv]) stage := by
  cases h with
  | receiving _ hMore =>
      cases recv with
      | failed => cases hReceive
      | closed =>
          obtain ⟨packet, rfl, hBytes⟩ := packetOf_ok hReceive
          exact .handling packet _ (hMore [.closed]) hBytes
      | data chunk =>
          simp only [receive] at hReceive
          split at hReceive
          · cases hReceive
          · next after hChunk =>
            obtain ⟨packet, rfl, hBytes⟩ := packetOf_ok hReceive
            refine .handling packet _ ((hMore [.data chunk]).trans ?_) hBytes
            simp only [receiveLoop, hChunk]
            rfl
          · next after hChunk =>
            cases hReceive
            refine .receiving after fun more => ?_
            rw [List.append_assoc, hMore]
            simp only [List.singleton_append, receiveLoop, hChunk]
            rfl

/-- A round that stops is one in which the whole loop stops. -/
theorem stop {halt : SessionHalt} (h : Received memory events (.receiving received))
    (hReceive : receive memory recv received = .error halt) (more : List Recv) :
    ∃ stop, assemble memory (events ++ recv :: more) = .error stop := by
  have hPacket : ∀ {out : List Byte}, assemble memory (events ++ [recv]) = .ok out →
      packetOf out ≠ .error halt := by
    intro out hOut hHalt
    obtain ⟨stage, hStage⟩ := packetOf_of_assemble hOut
    rw [hStage] at hHalt
    cases hHalt
  cases h with
  | receiving _ hMore =>
      have hRest : assemble memory (events ++ recv :: more) = receiveLoop memory (recv :: more) received :=
        hMore (recv :: more)
      rw [hRest]
      cases recv with
      | failed => exact ⟨.exited, rfl⟩
      | closed => exact absurd hReceive (hPacket (hMore [.closed]))
      | data chunk =>
          simp only [receive] at hReceive
          split at hReceive
          · next stop hChunk =>
            refine ⟨stop, ?_⟩
            simp only [receiveLoop, hChunk]
            rfl
          · next after hChunk =>
            refine absurd hReceive (hPacket ((hMore [.data chunk]).trans ?_))
            simp only [receiveLoop, hChunk]
            rfl
          · cases hReceive

end Received

theorem receivedBy_append {more : List SessionAction} :
    receivedBy thread (actions ++ more) = receivedBy thread actions ++ receivedBy thread more := by
  simp only [receivedBy, List.filterMap_append]

/-- A handler stays in step with its record. -/
theorem Stands.moves {before after : HandlerAt} {phase : Phase} {loopAction : LoopAction}
    (h : Stands before stage phase) (hMoves : HandlerMoves loopAction thread before after)
    (hDone : loopAction = .setDone thread → phase = .closed)
    (hExit : loopAction = .exit thread → phase = .finished) : Stands after stage phase := by
  cases hMoves with
  | same => exact h
  | started =>
      cases h
      exact .receiving _
  | done hAction =>
      have hClosed := hDone hAction
      cases h with
      | receiving => cases hClosed
      | handling packet =>
          subst hClosed
          exact .closed packet
  | returned hAction =>
      have hFinished := hExit hAction
      cases h with
      | closed => cases hFinished
      | unlocked packet => exact .returned packet
  | joined =>
      cases h with
      | returned packet => exact .joined packet

/-- A call of a handler takes it on. -/
theorem Stands.called {handler : HandlerAt} {before after : Phase}
    (h : Stands handler (.handling packet) before)
    (hHandler : handler = .running ∧ call ≠ .unlock ∨ handler = .done ∧ call = .unlock)
    (hAfter : after = .finished ↔ call = .unlock) : Stands handler (.handling packet) after := by
  rcases hHandler with ⟨rfl, hCall⟩ | ⟨rfl, hCall⟩
  · exact .handling packet after fun hFinished => hCall (hAfter.mp hFinished)
  · rw [hAfter.mpr hCall]
    exact .unlocked packet

/-- No call changes the records. -/
theorem call_inLoop {events : LoopTrace} {before after : AcceptLoop}
    (h : run AcceptLoop.step (SessionAction.call thread call).inLoop before = .ok (events, after)) :
    after = before := by
  cases call with
  | send =>
      obtain ⟨seen, middle, tail, hStep, hTail, _⟩ := run_cons_ok_iff.mp h
      cases hTail
      exact (transfer_running hStep).2
  | _ =>
      cases h
      rfl

namespace SessionsHold

theorem initial : SessionsHold junk [] .initial where
  loop := ⟨[], rfl⟩
  server := ⟨[], rfl⟩
  called := by simp
  stands := fun _ => .absent
  received := fun _ => .receiving .start fun _ => rfl

theorem loopHolds (h : SessionsHold junk actions state) : ∃ scanned rest, LoopHolds state.loop scanned rest := by
  obtain ⟨trace, hRun⟩ := h.loop
  obtain ⟨scanned, rest, hHolds, _⟩ := run_loop hRun
  exact ⟨scanned, rest, hHolds⟩

theorem main_step {loopAction : LoopAction} {seen : LoopEvent} {loop : AcceptLoop}
    (h : SessionsHold junk actions state)
    (hLoop : AcceptLoop.step loopAction state.loop = .ok (seen, loop))
    (hSeen : action.inLoop = [loopAction]) (hUnseen : action.inHandler = [])
    (hReceived : ∀ thread, receivedBy thread [action] = [])
    (hDone : ∀ thread, loopAction = .setDone thread → state.server.phase thread = .closed)
    (hExit : ∀ thread, loopAction = .exit thread → state.server.phase thread = .finished) :
    SessionsHold junk (actions ++ [action]) { state with loop } := by
  obtain ⟨trace, hRun⟩ := h.loop
  obtain ⟨scanned, rest, hHolds⟩ := h.loopHolds
  refine ⟨⟨trace ++ [(loopAction, seen)], ?_⟩, ?_, ?_, fun thread => ?_, fun thread => ?_⟩
  · rw [List.flatMap_append, List.flatMap_singleton, hSeen]
    exact run_concat_of_ok hRun hLoop
  · rw [List.flatMap_append, List.flatMap_singleton, hUnseen, List.append_nil]
    exact h.server
  · rw [List.flatMap_append, List.flatMap_singleton, hUnseen, List.append_nil]
    exact h.called
  · exact (h.stands thread).moves (loop_moves hHolds hLoop thread) (hDone thread) (hExit thread)
  · rw [receivedBy_append, hReceived, List.append_nil]
    exact h.received thread

theorem recv_step {seen : LoopEvent} {loop : AcceptLoop} (h : SessionsHold junk actions state)
    (hStage : state.stage thread = .receiving received)
    (hLoop : AcceptLoop.step (.transfer thread) state.loop = .ok (seen, loop))
    (hReceive : receive (junk thread) recv received = .ok stage) :
    SessionsHold junk (actions ++ [.recv thread recv])
      { state with loop, stage := Function.update state.stage thread stage } := by
  obtain ⟨trace, hRun⟩ := h.loop
  obtain ⟨calls, hCalls⟩ := h.server
  obtain ⟨hRunning, rfl⟩ := transfer_running hLoop
  have hOther : ∀ action ∈ actions.flatMap SessionAction.inHandler, action.thread ≠ thread := by
    rintro action hAction rfl
    obtain ⟨packet, hPacket⟩ := h.called action hAction
    rw [hStage] at hPacket
    cases hPacket
  have hSame : (actions ++ [SessionAction.recv thread recv]).flatMap SessionAction.inHandler =
      actions.flatMap SessionAction.inHandler := by
    rw [List.flatMap_append, List.flatMap_singleton]
    exact List.append_nil _
  refine ⟨⟨trace ++ [(.transfer thread, seen)], ?_⟩, ⟨calls, ?_⟩, ?_, fun other => ?_, fun other => ?_⟩
  · rw [List.flatMap_append, List.flatMap_singleton]
    exact run_concat_of_ok hRun hLoop
  · rw [hSame, ← hCalls]
    refine run_congr fun action hAction server => threadHandler_congr ?_
    simp only [Sessions.packet, Function.update_of_ne (hOther action hAction)]
  · rw [hSame]
    intro action hAction
    simp only [Function.update_of_ne (hOther action hAction)]
    exact h.called action hAction
  · by_cases hThread : other = thread
    · subst hThread
      have hStands := h.stands other
      rw [hStage, hRunning] at hStands
      simp only [Function.update_self, hRunning]
      generalize state.server.phase other = phase at hStands
      cases hStands
      cases stage with
      | receiving received => exact .receiving received
      | handling packet => exact .handling packet _ (by simp)
    · simp only [Function.update_of_ne hThread]
      exact h.stands other
  · rw [receivedBy_append]
    by_cases hThread : other = thread
    · subst hThread
      have hReceived := h.received other
      rw [hStage] at hReceived
      simpa [receivedBy] using hReceived.step hReceive
    · have hNothing : receivedBy other [.recv thread recv] = [] := by
        simp [receivedBy, Ne.symm hThread]
      rw [hNothing, List.append_nil]
      simp only [Function.update_of_ne hThread]
      exact h.received other

theorem call_step {reply : Reply} {server : Server} {loop : AcceptLoop} (h : SessionsHold junk actions state)
    (hStage : state.stage thread = .handling packet)
    (hLoop : ∃ events, run AcceptLoop.step (SessionAction.call thread call).inLoop state.loop = .ok (events, loop))
    (hHandler : state.loop.handler thread = .running ∧ call ≠ .unlock ∨
      state.loop.handler thread = .done ∧ call = .unlock)
    (hServer : threadHandler state.packet ⟨thread, call⟩ state.server = .ok (reply, server)) :
    SessionsHold junk (actions ++ [.call thread call]) { state with loop, server } := by
  obtain ⟨trace, hRun⟩ := h.loop
  obtain ⟨calls, hCalls⟩ := h.server
  obtain ⟨events, hEvents⟩ := hLoop
  obtain rfl := call_inLoop hEvents
  obtain ⟨phase, hPhase, hFinished, _⟩ := threadHandler_phase hServer
  refine ⟨⟨trace ++ events, ?_⟩, ⟨calls ++ [(⟨thread, call⟩, reply)], ?_⟩, ?_, fun other => ?_, fun other => ?_⟩
  · rw [List.flatMap_append, List.flatMap_singleton]
    exact run_append_ok_iff.mpr ⟨trace, _, events, hRun, hEvents, rfl⟩
  · rw [List.flatMap_append, List.flatMap_singleton]
    exact run_concat_of_ok hCalls hServer
  · rw [List.flatMap_append, List.flatMap_singleton]
    intro action hAction
    rcases List.mem_append.mp hAction with hBefore | hLast
    · exact h.called action hBefore
    · obtain rfl := List.mem_singleton.mp hLast
      exact ⟨packet, hStage⟩
  · simp only [hPhase]
    by_cases hThread : other = thread
    · subst hThread
      rw [Function.update_self]
      have hStands := h.stands other
      rw [hStage] at hStands ⊢
      exact hStands.called hHandler hFinished
    · rw [Function.update_of_ne hThread]
      exact h.stands other
  · rw [receivedBy_append]
    have hNothing : receivedBy other [SessionAction.call thread call] = [] := rfl
    rw [hNothing, List.append_nil]
    exact h.received other

/-- Whatever step comes next, the parts stay as they are on their own. -/
theorem step (h : SessionsHold junk actions state)
    (hStep : Sessions.step junk action state = .ok (event, next)) :
    SessionsHold junk (actions ++ [action]) next := by
  cases step_cases hStep with
  | main _ loopAction event loop hLoop hSeen hUnseen hReceived hDone hExit =>
      exact h.main_step hLoop hSeen hUnseen hReceived hDone hExit
  | recv thread recv received stage event loop hStage hLoop hReceive => exact h.recv_step hStage hLoop hReceive
  | call thread call packet reply server loop hStage hLoop hHandler hServer =>
      exact h.call_step hStage hLoop hHandler hServer

end SessionsHold

/-- Whatever the order of their steps, the parts of the server run as they run
on their own. -/
theorem run_sessions (hRun : run (Sessions.step junk) actions .initial = .ok (trace, state)) :
    SessionsHold junk actions state := by
  rw [← trace_actions hRun]
  refine run_induct (fun history state => SessionsHold junk (history.map Prod.fst) state) ?_ []
    SessionsHold.initial along_true hRun
  intro history state action event next h hStep _
  rw [List.map_append, List.map_singleton]
  exact h.step hStep

end Aesd
