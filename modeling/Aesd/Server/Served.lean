import Aesd.Server.Sessions

/-! What the whole server does for its clients: no interleaving makes it access
what it must not, and clients whose packets arrive whole are served as if one
at a time. -/
namespace Aesd
open Kernel Memory Execution Delimited

/-- Whose step it is, if not the main thread's. -/
def SessionAction.thread : SessionAction → Option Nat
  | .accept _ _ => none
  | .test => none
  | .join => none
  | .recv thread _ => some thread
  | .call thread _ => some thread
  | .setDone thread => some thread
  | .exit thread => some thread

/-- Threads in the order in which they took the mutex. -/
def sessionOrder (actions : List SessionAction) : List Nat :=
  actions.filterMap fun action => match action with
    | .call thread .lock => some thread
    | _ => none

/-- What one client sends: chunks that the receive loop takes as they are,
with a line, or with a seek command and nothing behind it. -/
structure Client where
  chunks : List Chunk
  closed : Bool
  framed : Framed 0 chunks
  ends : newline ∈ streamOf chunks ∨ closed = true ∧ ioctlString.isPrefixOf (streamOf chunks) = true

namespace Client

/-- The receive loop ends with the line, or with the whole of a seek command. -/
theorem assembles (client : Client) (memory : Nat → Nat → Byte) :
    ∃ out, assemble memory (deliveries client.chunks client.closed) = .ok out ∧
      cstring out = through newline (streamOf client.chunks) :=
  receiveLoop_of_framed holds_start client.framed (client.ends.symm.imp_left And.left)

def packet (client : Client) : Packet where
  bytes := through newline (streamOf client.chunks)
  noNul := client.framed.noNul
  short := by
    obtain ⟨out, hOut, hText⟩ := client.assembles fun _ _ => 0
    obtain ⟨packet, hBytes⟩ := packet_of_assemble hOut
    rw [← hText, ← hBytes]
    exact packet.short

theorem wellFormed (client : Client) : client.packet.WellFormed := by
  by_cases hLine : newline ∈ streamOf client.chunks
  · refine .inr ⟨before newline (streamOf client.chunks), not_mem_before, ?_⟩
    exact through_eq_before hLine
  · obtain ⟨_, hSeek⟩ := client.ends.resolve_left hLine
    have hWhole : client.packet.bytes = streamOf client.chunks := through_of_not_mem hLine
    refine .inl ?_
    rw [Packet.isSeek, hWhole]
    exact hSeek

end Client

variable {junk : Nat → Nat → Nat → Byte} {state next : Sessions} {action : SessionAction}
  {actions : List SessionAction} {event : SessionEvent} {trace : List (SessionAction × SessionEvent)}
  {thread : Nat} {call : Call} {received : Receiving} {halt : SessionHalt} {packet : Packet}

/-- Every way in which a step is refused. -/
inductive SessionStops (junk : Nat → Nat → Nat → Byte) (state : Sessions) : SessionAction → SessionHalt → Prop where
  | orderly (action : SessionAction) (halt : SessionHalt) (hHalt : halt ∈ [.order, .waits, .mutex]) :
      SessionStops junk state action halt
  | receive (thread : Nat) (recv : Recv) (received : Receiving) (halt : SessionHalt)
      (hStage : state.stage thread = .receiving received)
      (hReceive : Aesd.receive (junk thread) recv received = .error halt) :
      SessionStops junk state (.recv thread recv) halt
  | device (thread : Nat) (call : Call) (packet : Packet) (stop : Stop)
      (hStage : state.stage thread = .handling packet)
      (hStop : threadHandler state.packet ⟨thread, call⟩ state.server = .error (.device stop)) :
      SessionStops junk state (.call thread call) (.device stop)

theorem inLoop_error {loopAction : LoopAction} (h : SessionsHold junk actions state)
    (hStop : state.inLoop loopAction = .error halt) : halt ∈ [.order, .waits, .mutex] := by
  obtain ⟨scanned, rest, hHolds⟩ := h.loopHolds
  have hOutcome := step_outcome hHolds loopAction
  unfold Sessions.inLoop at hStop
  split at hStop
  · cases hStop
    simp
  · cases hStop
    simp
  · next hFault =>
    rw [hFault] at hOutcome
    cases hOutcome
  · cases hStop

theorem inHandler_error (hStage : state.stage thread = .handling packet)
    (hStop : state.inHandler thread call = .error halt) : SessionStops junk state (.call thread call) halt := by
  unfold Sessions.inHandler at hStop
  split at hStop
  · cases hStop
    exact .orderly _ _ (by simp)
  · cases hStop
    exact .orderly _ _ (by simp)
  · next stop hDevice =>
    cases hStop
    exact .device thread call packet stop hStage hDevice
  · cases hStop

theorem step_stops (h : SessionsHold junk actions state)
    (hStop : Sessions.step junk action state = .error halt) : SessionStops junk state action halt := by
  cases action with
  | accept fd memory => exact .orderly _ _ (inLoop_error h hStop)
  | test => exact .orderly _ _ (inLoop_error h hStop)
  | join => exact .orderly _ _ (inLoop_error h hStop)
  | setDone thread =>
      simp only [Sessions.step] at hStop
      split at hStop
      · exact .orderly _ _ (inLoop_error h hStop)
      · cases hStop
        exact .orderly _ _ (by simp)
  | exit thread =>
      simp only [Sessions.step] at hStop
      split at hStop
      · exact .orderly _ _ (inLoop_error h hStop)
      · cases hStop
        exact .orderly _ _ (by simp)
  | recv thread recv =>
      simp only [Sessions.step] at hStop
      split at hStop
      · cases hStop
        exact .orderly _ _ (by simp)
      · next received hStage =>
        rcases bind_error_iff.mp hStop with hLoop | ⟨⟨answer, after⟩, hLoop, hRest⟩
        · exact .orderly _ _ (inLoop_error h hLoop)
        · rcases bind_error_iff.mp hRest with hReceive | ⟨stage, _, hDone⟩
          · exact .receive thread recv received halt hStage hReceive
          · cases hDone
  | call thread call =>
      cases hStage : state.stage thread with
      | receiving received =>
          simp only [Sessions.step, hStage] at hStop
          cases hStop
          exact .orderly _ _ (by simp)
      | handling packet =>
          cases call with
          | send =>
              simp only [Sessions.step, hStage] at hStop
              rcases bind_error_iff.mp hStop with hLoop | ⟨⟨answer, after⟩, hLoop, hRest⟩
              · exact .orderly _ _ (inLoop_error h hLoop)
              · obtain ⟨seen, loop, hStep, _, rfl⟩ := inLoop_ok_iff.mp hLoop
                obtain ⟨_, rfl⟩ := transfer_running hStep
                exact inHandler_error hStage hRest
          | _ =>
              simp only [Sessions.step, hStage] at hStop
              split at hStop
              · exact inHandler_error hStage hStop
              · cases hStop
                exact .orderly _ _ (by simp)

theorem receive_ne_fault {memory : Nat → Nat → Byte} {recv : Recv} :
    Aesd.receive memory recv received ≠ .error .fault := by
  have hPacket : ∀ out, packetOf out ≠ .error .fault := by
    intro out
    unfold packetOf
    split <;> simp
  cases recv with
  | failed => simp [Aesd.receive]
  | closed => exact hPacket _
  | data chunk =>
      simp only [Aesd.receive]
      split
      · simp
      · exact hPacket _
      · simp

/-- Only an unlock takes a handler to its end. -/
theorem run_finished {calls : List Action} {answers : List (Action × Reply)} {packets : Nat → Packet}
    {server : Server} (hRun : run (threadHandler packets) calls .initial = .ok (answers, server))
    (hFinished : server.phase thread = .finished) : ⟨thread, .unlock⟩ ∈ calls := by
  rw [← trace_actions hRun]
  revert hFinished
  refine run_induct (fun history server => server.phase thread = .finished →
    ⟨thread, .unlock⟩ ∈ history.map Prod.fst) ?_ [] (fun hReady => by cases hReady) along_true hRun
  intro history before ⟨other, call⟩ reply after hBefore hStep _ hFinished
  obtain ⟨phase, hPhase, hUnlock, _⟩ := threadHandler_phase hStep
  rw [hPhase] at hFinished
  rw [List.map_append, List.mem_append]
  by_cases hSame : thread = other
  · subst hSame
    rw [Function.update_self] at hFinished
    rw [hUnlock.mp hFinished]
    exact .inr (List.mem_singleton.mpr rfl)
  · rw [Function.update_of_ne hSame] at hFinished
    exact .inl (hBefore hFinished)

theorem mem_calls (h : ⟨thread, call⟩ ∈ actions.flatMap SessionAction.inHandler) :
    .call thread call ∈ actions := by
  obtain ⟨action, hAction, hCall⟩ := List.mem_flatMap.mp h
  cases action with
  | call other request =>
      cases List.mem_singleton.mp hCall
      exact hAction
  | _ => cases hCall

theorem Stands.finished {handler : HandlerAt} {stage : Stage} {phase : Phase}
    (h : Stands handler stage phase) (hHandler : handler = .returned ∨ handler = .joined) :
    phase = .finished := by
  rcases hHandler with rfl | rfl
  · cases h
    rfl
  · cases h
    rfl

/-- A thread whose record is gone takes no step. -/
theorem joined_step (h : SessionsHold junk actions state) (hJoined : state.loop.handler thread = .joined)
    (hStep : Sessions.step junk action state = .ok (event, next)) :
    next.loop.handler thread = .joined ∧ action.thread ≠ some thread := by
  have hFinished := (h.stands thread).finished (.inr hJoined)
  cases step_cases hStep with
  | main _ loopAction event loop hLoop hSeen _ _ hDone _ hTransfer =>
      obtain ⟨scanned, rest, hHolds⟩ := h.loopHolds
      have hMoves := loop_moves hHolds hLoop thread
      rw [hJoined] at hMoves
      refine ⟨?_, fun hThread => ?_⟩
      · generalize loop.handler thread = handler at hMoves
        cases hMoves
        rfl
      · cases action with
        | setDone other =>
            cases hThread
            cases hSeen
            rw [hDone thread rfl] at hFinished
            cases hFinished
        | exit other =>
            cases hThread
            cases hSeen
            rw [exit_done hLoop] at hJoined
            cases hJoined
        | accept => cases hThread
        | test => cases hThread
        | join => cases hThread
        | recv other recv =>
            cases hSeen
            exact absurd rfl (hTransfer other)
        | call other request =>
            cases request with
            | send =>
                cases hSeen
                exact absurd rfl (hTransfer other)
            | _ => cases hSeen
  | recv other recv received stage event loop hStage hLoop hReceive =>
      obtain ⟨hRunning, rfl⟩ := transfer_running hLoop
      refine ⟨hJoined, ?_⟩
      rintro ⟨rfl⟩
      rw [hRunning] at hJoined
      cases hJoined
  | call other call packet reply server loop hStage hLoop hHandler hServer =>
      obtain ⟨events, hEvents⟩ := hLoop
      obtain rfl := call_inLoop hEvents
      refine ⟨hJoined, ?_⟩
      rintro ⟨rfl⟩
      rcases hHandler with ⟨hRunning, _⟩ | ⟨hDone, _⟩
      · rw [hRunning] at hJoined
        cases hJoined
      · rw [hDone] at hJoined
        cases hJoined

/-- The join takes the thread to its end. -/
theorem joined_event {record : Nat} (h : SessionsHold junk actions state)
    (hStep : Sessions.step junk action state = .ok (.loop (.joined thread record), next)) :
    next.loop.handler thread = .joined ∧ state.server.phase thread = .finished := by
  obtain ⟨scanned, rest, hHolds⟩ := h.loopHolds
  cases step_cases hStep with
  | main _ loopAction _ loop hLoop =>
      have hOutcome := step_outcome hHolds loopAction
      rw [hLoop] at hOutcome
      cases hOutcome with
      | joined _ heap head hMain hReturned =>
          exact ⟨Function.update_self _ _ _, (h.stands thread).finished (.inl hReturned)⟩
  | recv other recv received stage _ loop hStage hLoop =>
      have hOutcome := step_outcome hHolds (.transfer other)
      rw [hLoop] at hOutcome
      cases hOutcome

/-- Over any run the records are safe: no step accesses one that was freed,
and a thread whose record is joined and freed was out of the critical section
before and takes no step after. A run ends where a receive would leave its
buffer. -/
theorem sessions_safe (junk : Nat → Nat → Nat → Byte) (actions : List SessionAction) :
    run (Sessions.step junk) actions .initial ≠ .error .fault ∧
    ∀ trace state, run (Sessions.step junk) actions .initial = .ok (trace, state) →
      ∀ before action thread record after, trace = before ++ (action, .loop (.joined thread record)) :: after →
        .call thread .unlock ∈ before.map Prod.fst ∧
        ∀ later ∈ after.map Prod.fst, later.thread ≠ some thread := by
  constructor
  · intro hFault
    obtain ⟨before, action, after, trace, state, _, hBefore, hStop⟩ := run_error hFault
    have hHold := run_sessions hBefore
    generalize hHalt : SessionHalt.fault = halt at hStop
    cases step_stops hHold hStop with
    | orderly _ _ hOrderly =>
        subst hHalt
        simp at hOrderly
    | receive thread recv received _ hStage hReceive =>
        subst hHalt
        exact receive_ne_fault hReceive
    | device => cases hHalt
  · rintro trace state hRun before action thread record after rfl
    obtain ⟨middle, hBefore, hRest⟩ := run_resume hRun
    obtain ⟨_, next, _, hStep, hAfter, hEvents⟩ := run_cons_ok_iff.mp hRest
    cases hEvents
    have hHold := run_sessions hBefore
    obtain ⟨hJoined, hFinished⟩ := joined_event hHold hStep
    have hNext := run_sessions (run_concat_of_ok hBefore hStep)
    refine ⟨?_, ?_⟩
    · obtain ⟨calls, hCalls⟩ := hHold.server
      exact mem_calls (run_finished hCalls hFinished)
    · have hEnd := run_induct (fun history state => (∃ actions, SessionsHold junk actions state) ∧
        state.loop.handler thread = .joined ∧ ∀ later ∈ history.map Prod.fst, later.thread ≠ some thread)
        ?_ [] ⟨⟨_, hNext⟩, hJoined, by simp⟩ along_true hAfter
      · exact hEnd.2.2
      · rintro history state action event next ⟨⟨actions, hHold⟩, hJoined, hBefore⟩ hStep _
        obtain ⟨hStays, hOther⟩ := joined_step hHold hJoined hStep
        refine ⟨⟨_, hHold.step hStep⟩, hStays, fun later hLater => ?_⟩
        rw [List.map_append, List.mem_append] at hLater
        rcases hLater with hEarlier | hLast
        · exact hBefore later hEarlier
        · rwa [List.mem_singleton.mp hLast]

/-- Once the receive loop has returned, what comes later is not received. -/
theorem receiveLoop_append {memory : Nat → Nat → Byte} {events more : List Recv} {start : Receiving}
    {out : List Byte} (h : receiveLoop memory events start = .ok out) :
    receiveLoop memory (events ++ more) start = .ok out := by
  induction events generalizing start with
  | nil => cases h
  | cons event rest ih =>
      cases event with
      | failed => cases h
      | closed => exact h
      | data chunk =>
          obtain ⟨⟨complete, next⟩, hChunk, hRest⟩ := bind_ok_iff.mp h
          refine bind_ok_iff.mpr ⟨_, hChunk, ?_⟩
          cases complete with
          | true => exact hRest
          | false => exact ih hRest

variable {clients : Nat → Client}

/-- So far every thread received what its client sends. -/
def ReceivedFrom (clients : Nat → Client) (actions : List SessionAction) : Prop :=
  ∀ thread, receivedBy thread actions <+: deliveries (clients thread).chunks (clients thread).closed

theorem ReceivedFrom.before {more : List SessionAction} (h : ReceivedFrom clients (actions ++ more)) :
    ReceivedFrom clients actions := by
  intro thread
  have hAll := h thread
  rw [receivedBy_append] at hAll
  exact (List.prefix_append _ _).trans hAll

namespace SessionsHold

theorem packet_eq (h : SessionsHold junk actions state) (hReceived : ReceivedFrom clients actions)
    (hStage : state.stage thread = .handling packet) : packet = (clients thread).packet := by
  have hStages := h.received thread
  rw [hStage] at hStages
  cases hStages with
  | handling _ out hOut hBytes =>
      obtain ⟨more, hMore⟩ := hReceived thread
      obtain ⟨same, hSame, hText⟩ := (clients thread).assembles (junk thread)
      have hAll := @receiveLoop_append (junk thread) _ more _ _ hOut
      rw [hMore] at hAll
      have hOutSame : out = same := Except.ok.inj (hAll.symm.trans hSame)
      rw [hOutSame, hText] at hBytes
      cases packet
      cases hBytes
      rfl

/-- The threads take their turns with the packets that the clients sent. -/
theorem served (h : SessionsHold junk actions state) (hReceived : ReceivedFrom clients actions) :
    ∃ calls, run (threadHandler fun thread => (clients thread).packet)
      (actions.flatMap SessionAction.inHandler) .initial = .ok (calls, state.server) := by
  obtain ⟨calls, hCalls⟩ := h.server
  refine ⟨calls, (run_congr fun action hAction server => threadHandler_congr ?_).trans hCalls⟩
  obtain ⟨packet, hPacket⟩ := h.called action hAction
  rw [Sessions.packet, hPacket]
  exact (h.packet_eq hReceived hPacket).symm

end SessionsHold

theorem lockOrder_eq (trace : List (Action × Reply)) :
    lockOrder trace = (trace.map Prod.fst).filterMap Action.lockedBy := by
  rw [List.filterMap_map]
  rfl

theorem sessionOrder_eq (actions : List SessionAction) :
    sessionOrder actions = (actions.flatMap SessionAction.inHandler).filterMap Action.lockedBy := by
  induction actions with
  | nil => rfl
  | cons action rest ih =>
      rw [List.flatMap_cons, List.filterMap_append, ← ih]
      cases action with
      | call thread call => cases call <;> rfl
      | _ => rfl

/-- For any number of clients whose chunks are taken as they are, and any
interleaving of the main thread and the handlers: a step is at most out of
order, or waits; and the device has and the clients get what the order of the
mutex says. -/
theorem sessions_served (junk : Nat → Nat → Nat → Byte) (clients : Nat → Client) (actions : List SessionAction)
    (hReceived : ReceivedFrom clients actions) :
    (∀ halt, run (Sessions.step junk) actions .initial = .error halt → halt ∈ [.order, .waits, .mutex]) ∧
    ∀ trace state, run (Sessions.step junk) actions .initial = .ok (trace, state) →
      ServedInTurns (fun thread => (clients thread).packet) (sessionOrder actions) state.server := by
  have hPackets : ∀ thread, (clients thread).packet.WellFormed := fun thread => (clients thread).wellFormed
  constructor
  · intro halt hHalt
    obtain ⟨before, action, after, trace, state, rfl, hBefore, hStop⟩ := run_error hHalt
    have hHold := run_sessions hBefore
    have hSoFar : ReceivedFrom clients before := hReceived.before
    cases step_stops hHold hStop with
    | orderly _ _ hOrderly => exact hOrderly
    | receive thread recv received _ hStage hReceive =>
        have hStages := hHold.received thread
        rw [hStage] at hStages
        obtain ⟨more, hMore⟩ := hReceived thread
        obtain ⟨out, hOut, _⟩ := (clients thread).assembles (junk thread)
        obtain ⟨stop, hStop⟩ := hStages.stop hReceive (receivedBy thread after ++ more)
        have hNow : receivedBy thread (.recv thread recv :: after) = recv :: receivedBy thread after := by
          simp [receivedBy]
        rw [receivedBy_append, hNow, List.append_assoc, List.cons_append] at hMore
        rw [hMore, hOut] at hStop
        cases hStop
    | device thread call packet stop hStage hDevice =>
        obtain ⟨calls, hCalls⟩ := hHold.served hSoFar
        obtain ⟨completed, hSerial, _⟩ := run_serial hPackets hCalls
        have hOutcome := threadHandler_outcome hPackets hSerial ⟨thread, call⟩
        have hPacket : state.packet thread = (clients thread).packet := by
          rw [Sessions.packet, hStage]
          exact hHold.packet_eq hSoFar hStage
        rw [← threadHandler_congr hPacket, hDevice] at hOutcome
        cases hOutcome
  · intro trace state hRun
    obtain ⟨calls, hCalls⟩ := (run_sessions hRun).served hReceived
    obtain ⟨completed, hSerial, hOrder⟩ := run_serial hPackets hCalls
    rw [sessionOrder_eq, ← trace_actions hCalls, ← lockOrder_eq, hOrder]
    exact hSerial.servedInTurns hPackets

/-- Two clients with a line each, the first of them in two chunks. -/
def twoClients (thread : Nat) : Client :=
  if thread = 1 then
    ⟨[singleChunk [98, newline] (by decide)], false,
      (framed_last (by decide)).mpr ⟨by decide, by decide, by simp [singleChunk, Chunk.newlineAt, newline],
        by decide⟩,
      .inl (by decide)⟩
  else
    ⟨[singleChunk [97] (by decide), singleChunk [newline] (by decide)], false,
      (framed_open (by decide)).mpr ⟨by decide, by decide,
        (framed_last (by decide)).mpr ⟨by decide, by decide, by simp [singleChunk, Chunk.newlineAt, newline],
          by decide⟩⟩,
      .inl (by decide)⟩

def callsOf (thread : Nat) (calls : List Call) : List SessionAction := calls.map (.call thread)

/-- While the first client is still sending, the second one is served. -/
def twoOpening : List SessionAction :=
  [.accept 4 ⟨⟨true, 7, 9⟩, none⟩, .test, .recv 0 (.data (singleChunk [97] (by decide))), .test,
    .accept 5 ⟨⟨true, 7, 9⟩, none⟩, .recv 1 (.data (singleChunk [98, newline] (by decide))), .test] ++
  callsOf 1 [.lock, .fopen, .fwrite] ++ [.recv 0 (.data (singleChunk [newline] (by decide)))]

/-- The first client has its turn behind the second one. -/
def twoClosing : List SessionAction :=
  callsOf 1 [.flush 9 9 fun _ => 0, .rewind, .fread 9, .send, .send, .fread 9, .fclose] ++
  [.setDone 1, .test, .test] ++ callsOf 1 [.unlock] ++ callsOf 0 [.lock, .fopen] ++ [.exit 1] ++
  callsOf 0 [.fwrite, .flush 1 1 fun _ => 0, .flush 9 9 fun _ => 0, .rewind, .fread 9, .send, .send, .fread 9,
    .send, .send, .fread 9, .fclose] ++ [.setDone 0] ++ callsOf 0 [.unlock]

theorem twoClients_received : ReceivedFrom twoClients (twoOpening ++ twoClosing) := by
  intro thread
  by_cases hSecond : thread = 1
  · subst hSecond
    exact ⟨[], rfl⟩
  · by_cases hFirst : thread = 0
    · subst hFirst
      exact ⟨[], rfl⟩
    · have hNothing : receivedBy thread (twoOpening ++ twoClosing) = [] := by
        simp [receivedBy, twoOpening, twoClosing, callsOf, Ne.symm hSecond, Ne.symm hFirst]
      rw [hNothing]
      exact List.nil_prefix

theorem sessions_served_two : ∃ trace state,
    run (Sessions.step fun _ _ _ => 255) (twoOpening ++ twoClosing) .initial = .ok (trace, state) ∧
      state.server.sent 1 = [98, newline] ∧ state.server.sent 0 = [98, newline, 97, newline] ∧
      ServedInTurns (fun thread => (twoClients thread).packet) [1, 0] state.server := by
  have hShown : (run (Sessions.step fun _ _ _ => 255) (twoOpening ++ twoClosing) .initial).map
      (fun result => (result.2.server.sent 1, result.2.server.sent 0)) =
        .ok ([98, newline], [98, newline, 97, newline]) := by decide +kernel
  cases hRun : run (Sessions.step fun _ _ _ => 255) (twoOpening ++ twoClosing) .initial with
  | error halt =>
      rw [hRun] at hShown
      cases hShown
  | ok result =>
      rw [hRun] at hShown
      obtain ⟨hSecond, hFirst⟩ := Prod.mk.inj (Except.ok.inj hShown)
      exact ⟨result.1, result.2, rfl, hSecond, hFirst,
        (sessions_served _ twoClients _ twoClients_received).2 _ _ hRun⟩

end Aesd
