import Aesd.Server.Served
import Mathlib.Algebra.BigOperators.Intervals
import Mathlib.Algebra.Order.BigOperators.Group.Finset

/-! The whole server comes to rest. Between two things that happen outside,
the main thread and the handlers take a bounded number of steps; and where
none of them can go on, every handler that has a packet has returned. -/
namespace Aesd
open Kernel Memory Execution Linked Word

/-- The bytes that a file has in front of its position. -/
def System.ahead (system : System) (fd : Nat) : Nat :=
  system.world.storedSize - unsigned64 (system.file fd).fPos

/-- How many calls a handler has left at most. While it waits for its turn
it is not known how much it will read. -/
def Phase.callsLeft (packet : Packet) (ahead : Nat) : Phase → Nat
  | .ready => packet.bytes.length + 2 ^ 64 + 7
  | .locked => packet.bytes.length + 2 ^ 64 + 6
  | .opened => packet.bytes.length + 2 ^ 64 + 5
  | .writing left => left.length + 2 ^ 64 + 4
  | .reading buffered => buffered.length + 2 * ahead + 3
  | .drained => 2
  | .closed => 1
  | .finished => 0

/-- A write that takes at least one byte, or any other call. -/
def Call.Productive : Call → Prop
  | .flush size copied _ => 0 < size ∧ 0 < copied
  | _ => True

def Server.callsLeft (packet : Nat → Packet) (server : Server) (thread : Nat) : Nat :=
  (server.phase thread).callsLeft (packet thread) (server.system.ahead thread)

/-- How many steps a handler has left beside its calls. -/
def HandlerAt.stepsLeft : HandlerAt → Nat
  | .running => 2
  | .done => 1
  | _ => 0

/-- How many steps the main thread has left in front of `accept`, at a scan
that still has some records to come. -/
def AcceptLoop.stepsLeft (rest : List Nat) (loop : AcceptLoop) : Nat :=
  match loop.main with
  | .accepting => 0
  | .joining => 1
  | .testing => rest.length + 2

def Sessions.stepsLeft (packet : Nat → Packet) (state : Sessions) (thread : Nat) : Nat :=
  state.server.callsLeft packet thread + (state.loop.handler thread).stepsLeft

/-- A step that the server takes without a new connection or a message. -/
def SessionAction.Internal : SessionAction → Prop
  | .accept _ _ => False
  | .recv _ _ => False
  | .call _ request => request.Productive
  | _ => True

def Sessions.Enabled (junk : Nat → Nat → Nat → Byte) (state : Sessions) : Prop :=
  ∃ action result, action.Internal ∧ Sessions.step junk action state = .ok result

/-- The main thread is in front of `accept`, and every handler that does not
receive is through. -/
structure Sessions.AtRest (state : Sessions) : Prop where
  accepting : state.loop.main = .accepting
  served : ∀ thread packet, state.stage thread = .handling packet →
    state.server.phase thread = .finished ∧
      (state.loop.handler thread = .returned ∨ state.loop.handler thread = .joined)

variable {packet : Nat → Packet} {completed : List Nat} {server next : Server} {thread other : Nat}
  {call : Call} {reply : Reply} {system after : System} {junk : Nat → Nat → Nat → Byte} {state : Sessions}
  {actions : List SessionAction} {clients : Nat → Client} {loop : AcceptLoop} {scanned rest : List Nat}

/-- A read takes what it gives from what is ahead. -/
theorem exec_read_ahead {log : WriteLog} {fd count : Nat} (h : Represents system.world log)
    (hSize : system.world.storedSize < 2 ^ 63)
    (hExec : System.exec (.read fd ⟨true, count, false⟩) system = .ok (reply, after)) :
    reply.retval = reply.data.length ∧ after.ahead fd + reply.data.length = system.ahead fd := by
  obtain ⟨filp, hRead, rfl⟩ := exec_read hExec
  have hOutcome := aesdRead_outcome h.ring (by rw [← h.ring.storedSize]; omega) ⟨true, count, false⟩
    (system.file fd)
  rw [hRead] at hOutcome
  have hTotal := h.ring.storedSize
  generalize reply.data = data at hOutcome ⊢
  generalize reply.retval = retval at hOutcome ⊢
  cases hOutcome with
  | noBuffer hBuf => cases hBuf
  | atEnd => simp [System.ahead]
  | failed _ _ hFails => cases hFails
  | copied index offset _ hIndex hLocate _ =>
      obtain ⟨_, hFits, _⟩ := @take_of_locate _ _ _ _ count hIndex hLocate
      refine ⟨rfl, ?_⟩
      rw [← hTotal] at hFits
      dsimp only
      rw [System.ahead, System.ahead, setFile_file_self, setFile_world, unsigned64_signed64,
        unsigned64_add (by omega)]
      omega

theorem writeLeft_lt {log : WriteLog} {fd size copied : Nat} {left : List Byte} {junk : Nat → Byte}
    (h : Represents system.world log) (hLock : system.world.dev.mxLock = false)
    (hProductive : 0 < size ∧ 0 < copied) (hLeft : left ≠ [])
    (hExec : System.exec (.write fd ⟨some (left.take size), false, true, copied, junk⟩) system =
      .ok (reply, after)) : (left.drop reply.retval.toNat).length < left.length := by
  obtain ⟨world, hWrite, _⟩ := @aesdWrite_served system.world (left.take size) _
    ⟨some (left.take size), false, true, copied, junk⟩ h rfl rfl hLock (Or.inl rfl)
  obtain ⟨_, hSame, _⟩ := exec_write hExec
  rw [hWrite] at hSame
  have hRetval : reply.retval = ((left.take size).take copied).length := (Prod.mk.inj (Except.ok.inj hSame)).1.symm
  have hPositive := List.length_pos_of_ne_nil hLeft
  rw [hRetval, List.length_drop, Int.toNat_natCast, List.length_take, List.length_take]
  omega

/-- A thread in front of its turn takes the mutex, and none is behind it. -/
theorem outside_mutex (hStep : threadHandler packet ⟨thread, call⟩ server = .ok (reply, next))
    (hOutside : server.phase thread = .ready ∨ server.phase thread = .finished) : server.mutexLock = none := by
  by_cases hLock : call = .lock
  · subst hLock
    exact (threadHandler_lock hStep).2.1
  · by_cases hUnlock : call = .unlock
    · subst hUnlock
      rw [(threadHandler_unlock hStep).1] at hOutside
      simp at hOutside
    · obtain ⟨hStarted, hGoing, _⟩ := threadHandler_inside hLock hUnlock hStep
      exact absurd hOutside (not_or.mpr ⟨hStarted, hGoing⟩)

namespace Serial

/-- Whoever reads or writes has a device whose sizes are those of a log. -/
theorem storedSize_lt (hPackets : ∀ thread, (packet thread).WellFormed) (h : Serial packet completed server)
    {buffered : List Byte} (hPhase : server.phase thread = .reading buffered) :
    (∃ log, Represents server.system.world log) ∧ server.system.world.storedSize < 2 ^ 63 := by
  obtain ⟨_, hInside⟩ := h.inside_of_phase hPhase (by simp) (by simp)
  cases hInside with
  | reading _ hDevice =>
      refine ⟨⟨_, hDevice⟩, ?_⟩
      rw [storedSize_packetLog hPackets hDevice]
      exact contents_length_lt

/-- While one thread takes a step, the others are in front of their turns or
behind them. -/
theorem outside (h : Serial packet completed server)
    (hStep : threadHandler packet ⟨thread, call⟩ server = .ok (reply, next)) (hOther : other ≠ thread) :
    server.phase other = .ready ∨ server.phase other = .finished := by
  by_contra hNot
  obtain ⟨hStarted, hGoing⟩ := not_or.mp hNot
  have hMutex := h.mutexLock_eq hStarted hGoing
  by_cases hInside : server.phase thread = .ready ∨ server.phase thread = .finished
  · rw [outside_mutex hStep hInside] at hMutex
    cases hMutex
  · obtain ⟨hThread, hThreadGoing⟩ := not_or.mp hInside
    exact hOther (Option.some.inj (hMutex.symm.trans (h.mutexLock_eq hThread hThreadGoing)))

end Serial

theorem callsLeft_moveTo {phase : Phase} :
    (server.moveTo thread phase).callsLeft packet thread =
      phase.callsLeft (packet thread) (server.system.ahead thread) := by
  rw [Server.callsLeft, moveTo_phase_self]
  rfl

/-- Each productive call is one that its thread has less to go. -/
theorem callsLeft_lt (hPackets : ∀ thread, (packet thread).WellFormed) (h : Serial packet completed server)
    (hProductive : call.Productive)
    (hStep : threadHandler packet ⟨thread, call⟩ server = .ok (reply, next)) :
    next.callsLeft packet thread < server.callsLeft packet thread := by
  have hOutcome := threadHandler_outcome hPackets h ⟨thread, call⟩
  rw [hStep] at hOutcome
  obtain ⟨later, hLater⟩ : ∃ later, Serial packet later next := by
    cases hOutcome with
    | moved _ _ later hNext => exact ⟨later, hNext⟩
  have hReading : next.phase thread = .reading [] → next.system.ahead thread < 2 ^ 63 := by
    intro hPhase
    obtain ⟨_, hSize⟩ := hLater.storedSize_lt hPackets hPhase
    exact Nat.lt_of_le_of_lt (Nat.sub_le _ _) hSize
  have hBefore : server.callsLeft packet thread =
    (server.phase thread).callsLeft (packet thread) (server.system.ahead thread) := rfl
  rw [hBefore]
  simp only [threadHandler] at hStep
  split at hStep
  · next hPhase =>
    split at hStep
    · cases hStep
      rw [callsLeft_moveTo, hPhase]
      simp only [Phase.callsLeft]
      omega
    · cases hStep
  · next hPhase =>
    obtain ⟨system, _, rfl⟩ := perform_ok hStep
    rw [callsLeft_moveTo, hPhase]
    simp only [Phase.callsLeft]
    omega
  · next hPhase =>
    split at hStep
    · obtain ⟨system, _, rfl⟩ := perform_ok hStep
      have hAhead := hReading moveTo_phase_self
      rw [callsLeft_moveTo, hPhase]
      simp only [Phase.callsLeft, Server.moveTo, List.length_nil] at hAhead ⊢
      omega
    · cases hStep
  · next hPhase =>
    split at hStep
    · cases hStep
    · cases hStep
      rw [callsLeft_moveTo, hPhase]
      simp only [Phase.callsLeft]
      omega
  · next size copied junk left hPhase =>
    split at hStep
    · cases hStep
    · next hLeft =>
      obtain ⟨system, hExec, rfl⟩ := perform_ok hStep
      obtain ⟨_, hInside⟩ := h.inside_of_phase hPhase (by simp) (by simp)
      rw [callsLeft_moveTo, hPhase]
      cases hInside with
      | writing _ _ _ _ hDevice =>
          have hLess := writeLeft_lt hDevice h.unlocked hProductive hLeft hExec
          simp only [Phase.callsLeft]
          omega
  · next hPhase =>
    obtain ⟨system, _, rfl⟩ := perform_ok hStep
    have hAhead := hReading moveTo_phase_self
    rw [callsLeft_moveTo, hPhase]
    simp only [Phase.callsLeft, Server.moveTo, List.length_nil] at hAhead ⊢
    omega
  · next count hPhase =>
    split at hStep
    · cases hStep
    · obtain ⟨system, hExec, rfl⟩ := perform_ok hStep
      obtain ⟨⟨log, hDevice⟩, hSize⟩ := h.storedSize_lt hPackets hPhase
      obtain ⟨hRetval, hAhead⟩ := exec_read_ahead hDevice hSize hExec
      rw [callsLeft_moveTo, hPhase]
      split
      · simp only [Phase.callsLeft, List.length_nil]
        omega
      · simp only [Phase.callsLeft]
        omega
  · next byte rest hPhase =>
    cases hStep
    rw [callsLeft_moveTo, hPhase]
    simp only [Phase.callsLeft, List.length_cons]
    omega
  · next hPhase =>
    obtain ⟨system, _, rfl⟩ := perform_ok hStep
    rw [callsLeft_moveTo, hPhase]
    simp only [Phase.callsLeft]
    omega
  · next hPhase =>
    cases hStep
    rw [callsLeft_moveTo, hPhase]
    simp only [Phase.callsLeft]
    omega
  · cases hStep

theorem callsLeft_other (h : Serial packet completed server)
    (hStep : threadHandler packet ⟨thread, call⟩ server = .ok (reply, next)) (hOther : other ≠ thread) :
    next.callsLeft packet other = server.callsLeft packet other := by
  obtain ⟨phase, hPhase, _⟩ := threadHandler_phase hStep
  rw [Server.callsLeft, Server.callsLeft, hPhase, Function.update_of_ne hOther]
  rcases h.outside hStep hOther with hReady | hFinished
  · rw [hReady]
    rfl
  · rw [hFinished]
    rfl

theorem perform_of_advances {op : Op} {answered : Reply → Phase} {sent : List Byte}
    (h : Advances packet completed thread server.system sent op answered) :
    ∃ result, server.perform thread op answered = .ok result := by
  obtain ⟨reply, system, hExec, _⟩ := h
  exact ⟨_, by simp only [Server.perform, hExec]; rfl⟩

/-- The thread in the critical section comes to its end by calls that are
never refused. -/
theorem exists_call (hPackets : ∀ thread, (packet thread).WellFormed) (h : Serial packet completed server)
    (hMutex : server.mutexLock = some thread) (hClosed : server.phase thread ≠ .closed) :
    ∃ call result, call.Productive ∧ call ≠ .unlock ∧
      threadHandler packet ⟨thread, call⟩ server = .ok result := by
  have hLock := h.unlocked
  have hInside := h.inside thread hMutex
  cases hPhase : server.phase thread with
  | ready => exact absurd hPhase hInside.phase_ne.1
  | finished => exact absurd hPhase hInside.phase_ne.2
  | closed => exact absurd hPhase hClosed
  | locked =>
      rw [hPhase] at hInside
      obtain ⟨result, hResult⟩ := perform_of_advances (fopen_advances hLock hInside)
      exact ⟨.fopen, result, trivial, by simp, by simp only [threadHandler, hPhase, hResult]⟩
  | opened =>
      rw [hPhase] at hInside
      cases hSeek : (packet thread).isSeek with
      | true =>
          obtain ⟨result, hResult⟩ := perform_of_advances (ioctl_advances hLock hInside hSeek
            ⟨AESDCHAR_IOCSEEKTO, some (sscanf (packet thread).bytes ⟨0, 0⟩), false, .zero⟩)
          exact ⟨.ioctl ⟨0, 0⟩ false .zero, result, trivial, by simp,
            by simp only [threadHandler, hPhase, ioctlArgs_of_isSeek hSeek, hResult]⟩
      | false => exact ⟨.fwrite, _, trivial, by simp, by simp only [threadHandler, hPhase, hSeek]; rfl⟩
  | writing left =>
      rw [hPhase] at hInside
      cases left with
      | nil =>
          obtain ⟨result, hResult⟩ := perform_of_advances (rewind_advances hLock hInside)
          exact ⟨.rewind, result, trivial, by simp, by simp only [threadHandler, hPhase, hResult]⟩
      | cons byte rest =>
          obtain ⟨result, hResult⟩ := perform_of_advances
            (flush_advances hPackets hLock hInside (by simp) 1 1 fun _ => 0)
          refine ⟨.flush 1 1 fun _ => 0, result, ⟨Nat.one_pos, Nat.one_pos⟩, by simp, ?_⟩
          simp only [threadHandler, hPhase, reduceCtorEq, ↓reduceIte, hResult]
  | reading buffered =>
      rw [hPhase] at hInside
      cases buffered with
      | nil =>
          obtain ⟨result, hResult⟩ := perform_of_advances (fread_advances hPackets hLock hInside Nat.one_pos)
          refine ⟨.fread 1, result, trivial, by simp, ?_⟩
          simp only [threadHandler, hPhase, Nat.one_ne_zero, ↓reduceIte, hResult]
      | cons byte rest => exact ⟨.send, _, trivial, by simp, by simp only [threadHandler, hPhase]; rfl⟩
  | drained =>
      rw [hPhase] at hInside
      obtain ⟨result, hResult⟩ := perform_of_advances (fclose_advances hLock hInside)
      exact ⟨.fclose, result, trivial, by simp, by simp only [threadHandler, hPhase, hResult]⟩

namespace Stands
variable {handler : HandlerAt} {stage : Stage} {phase : Phase} {handling : Packet}

theorem of_handling (h : Stands handler (.handling handling) phase) :
    handler = .running ∧ phase ≠ .finished ∨ handler = .done ∨
      phase = .finished ∧ (handler = .returned ∨ handler = .joined) := by
  cases h with
  | handling _ _ hPhase => exact .inl ⟨rfl, hPhase⟩
  | closed => exact .inr (.inl rfl)
  | unlocked => exact .inr (.inl rfl)
  | returned => exact .inr (.inr ⟨rfl, .inl rfl⟩)
  | joined => exact .inr (.inr ⟨rfl, .inr rfl⟩)

theorem of_done (h : Stands .done stage phase) :
    (∃ packet, stage = .handling packet) ∧ (phase = .closed ∨ phase = .finished) := by
  cases h with
  | closed packet => exact ⟨⟨packet, rfl⟩, .inl rfl⟩
  | unlocked packet => exact ⟨⟨packet, rfl⟩, .inr rfl⟩

theorem of_started (h : Stands handler stage phase) (hStarted : phase ≠ .ready) (hGoing : phase ≠ .finished) :
    (∃ packet, stage = .handling packet) ∧ (handler = .running ∨ handler = .done) := by
  cases h with
  | handling packet => exact ⟨⟨packet, rfl⟩, .inl rfl⟩
  | closed packet => exact ⟨⟨packet, rfl⟩, .inr rfl⟩
  | _ => contradiction

end Stands

theorem test_ok (h : LoopHolds loop scanned rest) (hMain : loop.main = .testing) :
    ∃ result, AcceptLoop.step .test loop = .ok result := by
  cases rest with
  | nil =>
      have hPointer : loop.dataPointer = none := h.testing hMain
      exact ⟨_, by simp only [AcceptLoop.step, AcceptLoop.testRecord, hMain, hPointer]; rfl⟩
  | cons record behind =>
      obtain ⟨thread, node, _, rfl, hRead, _, _⟩ := h.scanned_next hMain
      have hPointer : loop.dataPointer = some (loop.params thread) := (h.testing hMain).pointer_eq
      rw [hPointer] at hRead
      cases hDone : node.data.isDone with
      | true =>
          exact ⟨_, by simp [AcceptLoop.step, AcceptLoop.testRecord, hMain, hPointer, hRead, orFault, hDone, bind,
            Except.bind, pure, Except.pure]; rfl⟩
      | false =>
          exact ⟨_, by simp [AcceptLoop.step, AcceptLoop.testRecord, hMain, hPointer, hRead, orFault, hDone, bind,
            Except.bind, pure, Except.pure]; rfl⟩

theorem join_ok (h : LoopHolds loop scanned rest) (hMain : loop.main = .joining)
    (hPointer : loop.dataPointer = some (loop.params thread)) (hReturned : loop.handler thread = .returned) :
    ∃ result, AcceptLoop.step .join loop = .ok result := by
  obtain ⟨heap, head, hJoin, _⟩ := joinThread_eq h hMain hPointer hReturned
  exact ⟨_, hJoin⟩

theorem exit_ok (hDone : loop.handler thread = .done) :
    ∃ result, AcceptLoop.step (.exit thread) loop = .ok result :=
  ⟨_, by simp only [AcceptLoop.step, AcceptLoop.handlerStep, hDone]; rfl⟩

theorem transfer_ok (h : LoopHolds loop scanned rest) (hRunning : loop.handler thread = .running) :
    ∃ seen, AcceptLoop.step (.transfer thread) loop = .ok (seen, loop) := by
  obtain ⟨node, _, hTransfer⟩ := transfer_eq h hRunning
  exact ⟨_, hTransfer⟩

theorem setDone_ok (h : LoopHolds loop scanned rest) (hRunning : loop.handler thread = .running) :
    ∃ result, AcceptLoop.step (.setDone thread) loop = .ok result := by
  obtain ⟨node, heap, _, hDone, _⟩ := setDone_eq h hRunning
  exact ⟨_, hDone⟩

theorem inLoop_of_ok {loopAction : LoopAction} (h : ∃ result, AcceptLoop.step loopAction state.loop = .ok result) :
    ∃ result, state.inLoop loopAction = .ok result := by
  obtain ⟨⟨seen, loop⟩, hStep⟩ := h
  exact ⟨_, inLoop_ok_iff.mpr ⟨seen, loop, hStep, rfl, rfl⟩⟩

namespace SessionsHold

/-- A call that the thread comes to is taken, whatever the others do. -/
theorem call_ok (h : SessionsHold junk actions state) (hReceived : ReceivedFrom clients actions)
    {handling : Packet} (hStage : state.stage thread = .handling handling)
    (hHandler : state.loop.handler thread = .running ∧ call ≠ .unlock ∨
      state.loop.handler thread = .done ∧ call = .unlock)
    (hCall : ∃ result, threadHandler (fun thread => (clients thread).packet) ⟨thread, call⟩ state.server = .ok result) :
    ∃ result, Sessions.step junk (.call thread call) state = .ok result := by
  obtain ⟨⟨reply, server⟩, hServer⟩ := hCall
  have hPacket : state.packet thread = (clients thread).packet := by
    rw [Sessions.packet, hStage]
    exact h.packet_eq hReceived hStage
  rw [← threadHandler_congr hPacket] at hServer
  have hInHandler : state.inHandler thread call = .ok (.reply reply, { state with server }) :=
    inHandler_ok_iff.mpr ⟨reply, server, hServer, rfl, rfl⟩
  rcases hHandler with ⟨hRunning, hNot⟩ | ⟨hDone, rfl⟩
  · cases call with
    | unlock => exact absurd rfl hNot
    | send =>
        obtain ⟨scanned, rest, hHolds⟩ := h.loopHolds
        obtain ⟨seen, hTransfer⟩ := transfer_ok hHolds hRunning
        have hInLoop : state.inLoop (.transfer thread) = .ok (.loop seen, state) :=
          inLoop_ok_iff.mpr ⟨seen, state.loop, hTransfer, rfl, rfl⟩
        exact ⟨_, by simp only [Sessions.step, hStage, hInLoop, bind, Except.bind]; exact hInHandler⟩
    | _ => exact ⟨_, by simp only [Sessions.step, hStage, hRunning, ↓reduceIte]; exact hInHandler⟩
  · exact ⟨_, by simp only [Sessions.step, hStage, hDone, ↓reduceIte]; exact hInHandler⟩

/-- A handler that is done needs no other thread for what is left of it. -/
theorem done_enabled (h : SessionsHold junk actions state) (hReceived : ReceivedFrom clients actions)
    (hDone : state.loop.handler thread = .done) : state.Enabled junk := by
  have hStands := h.stands thread
  rw [hDone] at hStands
  obtain ⟨⟨handling, hStage⟩, hClosed | hFinished⟩ := hStands.of_done
  · obtain ⟨result, hResult⟩ := h.call_ok hReceived hStage (.inr ⟨hDone, rfl⟩)
      ⟨_, by simp only [threadHandler, hClosed]; rfl⟩
    exact ⟨.call thread .unlock, result, trivial, hResult⟩
  · obtain ⟨result, hResult⟩ := inLoop_of_ok (exit_ok hDone)
    exact ⟨.exit thread, result, trivial, by simp only [Sessions.step, hFinished, ↓reduceIte, hResult]⟩

/-- A handler with a packet goes on, or the one that has the mutex does. -/
theorem handling_enabled (h : SessionsHold junk actions state) (hReceived : ReceivedFrom clients actions)
    {handling : Packet} (hStage : state.stage thread = .handling handling)
    (hRunning : state.loop.handler thread = .running) (hPhase : state.server.phase thread ≠ .finished) :
    state.Enabled junk := by
  have hPackets : ∀ thread, (clients thread).packet.WellFormed := fun thread => (clients thread).wellFormed
  obtain ⟨calls, hCalls⟩ := h.served hReceived
  obtain ⟨completed, hSerial, _⟩ := run_serial hPackets hCalls
  obtain ⟨scanned, rest, hHolds⟩ := h.loopHolds
  cases hMutex : state.server.mutexLock with
  | none =>
      have hReady : state.server.phase thread = .ready := by
        by_contra hNot
        cases hMutex.symm.trans (hSerial.mutexLock_eq hNot hPhase)
      obtain ⟨result, hResult⟩ := @call_ok thread .lock _ _ _ _ h hReceived handling hStage (.inl ⟨hRunning, by simp⟩)
        ⟨_, by simp only [threadHandler, hReady, hMutex, ↓reduceIte]; rfl⟩
      exact ⟨.call thread .lock, result, trivial, hResult⟩
  | some owner =>
      obtain ⟨hStarted, hGoing⟩ := (hSerial.inside owner hMutex).phase_ne
      obtain ⟨⟨owned, hOwned⟩, hOwnerRunning | hDone⟩ := (h.stands owner).of_started hStarted hGoing
      · by_cases hClosed : state.server.phase owner = .closed
        · obtain ⟨result, hResult⟩ := inLoop_of_ok (setDone_ok hHolds hOwnerRunning)
          exact ⟨.setDone owner, result, trivial, by simp only [Sessions.step, hClosed, ↓reduceIte, hResult]⟩
        · obtain ⟨call, reply, hProductive, hCall, hStep⟩ := exists_call hPackets hSerial hMutex hClosed
          obtain ⟨result, hResult⟩ := h.call_ok hReceived hOwned (.inl ⟨hOwnerRunning, hCall⟩) ⟨reply, hStep⟩
          exact ⟨.call owner call, result, hProductive, hResult⟩
      · exact h.done_enabled hReceived hDone

/-- The main thread goes on, or the handler that it waits for does. -/
theorem main_enabled (h : SessionsHold junk actions state) (hReceived : ReceivedFrom clients actions)
    (hMain : state.loop.main ≠ .accepting) : state.Enabled junk := by
  obtain ⟨scanned, rest, hHolds⟩ := h.loopHolds
  cases hAt : state.loop.main with
  | accepting => exact absurd hAt hMain
  | testing =>
      obtain ⟨result, hResult⟩ := inLoop_of_ok (test_ok hHolds hAt)
      exact ⟨.test, result, trivial, hResult⟩
  | joining =>
      obtain ⟨thread, hListed, hNotRunning, hPointer⟩ := hHolds.joining hAt
      cases hHandler : state.loop.handler thread with
      | absent => exact absurd hHandler hListed.1
      | joined => exact absurd hHandler hListed.2
      | running => exact absurd hHandler hNotRunning
      | done => exact h.done_enabled hReceived hHandler
      | returned =>
          obtain ⟨result, hResult⟩ := inLoop_of_ok (join_ok hHolds hAt hPointer hHandler)
          exact ⟨.join, result, trivial, hResult⟩

/-- Some thread can take a step, or the server waits for its clients. -/
theorem progress (h : SessionsHold junk actions state) (hReceived : ReceivedFrom clients actions) :
    state.Enabled junk ∨ state.AtRest := by
  by_cases hMain : state.loop.main = .accepting
  · by_cases hServed : ∀ thread packet, state.stage thread = .handling packet →
      state.server.phase thread = .finished ∧
        (state.loop.handler thread = .returned ∨ state.loop.handler thread = .joined)
    · exact .inr ⟨hMain, hServed⟩
    · left
      simp only [not_forall] at hServed
      obtain ⟨thread, handling, hStage, hNot⟩ := hServed
      have hStands := h.stands thread
      rw [hStage] at hStands
      rcases hStands.of_handling with ⟨hRunning, hPhase⟩ | hDone | hThrough
      · exact h.handling_enabled hReceived hStage hRunning hPhase
      · exact h.done_enabled hReceived hDone
      · exact absurd hThrough hNot
  · exact .inl (h.main_enabled hReceived hMain)

end SessionsHold

/-- So many steps are left for the main thread and the handlers together. -/
def StepsLeft (junk : Nat → Nat → Nat → Byte) (clients : Nat → Client) (state : Sessions) (count : Nat) : Prop :=
  ∃ actions scanned rest, SessionsHold junk actions state ∧ ReceivedFrom clients actions ∧
    LoopHolds state.loop scanned rest ∧
    count = state.loop.stepsLeft rest +
      ∑ thread ∈ Finset.range state.loop.accepted, state.stepsLeft (fun thread => (clients thread).packet) thread

theorem sum_lt_of_thread {count : Nat} {before after : Nat → Nat} (hThread : thread < count)
    (hLess : after thread < before thread) (hOther : ∀ other, other ≠ thread → after other = before other) :
    ∑ other ∈ Finset.range count, after other < ∑ other ∈ Finset.range count, before other := by
  refine Finset.sum_lt_sum (fun other _ => ?_) ⟨thread, Finset.mem_range.mpr hThread, hLess⟩
  by_cases hSame : other = thread
  · exact hSame ▸ Nat.le_of_lt hLess
  · exact Nat.le_of_eq (hOther other hSame)

theorem ReceivedFrom.internal {action : SessionAction} (h : ReceivedFrom clients actions)
    (hInternal : action.Internal) :
    ReceivedFrom clients (actions ++ [action]) := by
  intro thread
  have hNothing : receivedBy thread [action] = [] := by
    cases action with
    | recv => cases hInternal
    | _ => rfl
  rw [receivedBy_append, hNothing, List.append_nil]
  exact h thread

/-- A step of the main thread, or one at the end of a handler, leaves less to
do. -/
theorem loop_stepsLeft {loopAction : LoopAction} {seen : LoopEvent} {after : AcceptLoop} {calls : Nat → Nat}
    (h : LoopHolds loop scanned rest) (hAccept : ∀ fd memory, loopAction ≠ .accept fd memory)
    (hTransfer : ∀ thread, loopAction ≠ .transfer thread)
    (hStep : AcceptLoop.step loopAction loop = .ok (seen, after)) :
    ∃ passed ahead, LoopHolds after passed ahead ∧
      after.stepsLeft ahead +
          ∑ thread ∈ Finset.range after.accepted, (calls thread + (after.handler thread).stepsLeft) <
        loop.stepsLeft rest +
          ∑ thread ∈ Finset.range loop.accepted, (calls thread + (loop.handler thread).stepsLeft) := by
  have hOutcome := step_outcome h loopAction
  rw [hStep] at hOutcome
  cases hOutcome with
  | accepted fd memory => exact absurd rfl (hAccept fd memory)
  | transferred thread => exact absurd rfl (hTransfer thread)
  | ended hMain hRest hAfter =>
      refine ⟨_, _, hAfter, ?_⟩
      simp only [AcceptLoop.stepsLeft, hMain]
      omega
  | found hMain hAfter =>
      refine ⟨_, _, hAfter, ?_⟩
      simp only [AcceptLoop.stepsLeft, hMain]
      omega
  | passed thread behind dataPointer hMain hRest _ hAfter =>
      refine ⟨_, _, hAfter, ?_⟩
      simp only [AcceptLoop.stepsLeft, hMain, hRest, List.length_cons]
      omega
  | joined thread heap head hMain hReturned hAfter =>
      refine ⟨_, _, hAfter, ?_⟩
      have hSame : ∀ other, (Function.update loop.handler thread .joined other).stepsLeft =
          (loop.handler other).stepsLeft := by
        intro other
        by_cases hThread : other = thread
        · rw [hThread, Function.update_self, hReturned]
          rfl
        · rw [Function.update_of_ne hThread]
      simp only [AcceptLoop.stepsLeft, hMain, hSame]
      omega
  | done thread heap hRunning hAfter =>
      have hListed : (loop.handler thread).Listed := by simp [HandlerAt.Listed, hRunning]
      refine ⟨_, _, hAfter, Nat.add_lt_add_left ?_ _⟩
      refine sum_lt_of_thread (h.listed_lt hListed) ?_ fun other hOther => ?_
      · simp only [Function.update_self, hRunning, HandlerAt.stepsLeft]
        omega
      · simp only [Function.update_of_ne hOther]
  | exited thread hDone hAfter =>
      have hListed : (loop.handler thread).Listed := by simp [HandlerAt.Listed, hDone]
      refine ⟨_, _, hAfter, Nat.add_lt_add_left ?_ _⟩
      refine sum_lt_of_thread (h.listed_lt hListed) ?_ fun other hOther => ?_
      · simp only [Function.update_self, hDone, HandlerAt.stepsLeft]
        omega
      · simp only [Function.update_of_ne hOther]

/-- Each step without a new connection or a message leaves less to do. -/
theorem StepsLeft.step {action : SessionAction} {event : SessionEvent} {after : Sessions} {count : Nat}
    (h : StepsLeft junk clients state count) (hInternal : action.Internal)
    (hStep : Sessions.step junk action state = .ok (event, after)) :
    ∃ less, less < count ∧ StepsLeft junk clients after less := by
  obtain ⟨actions, scanned, rest, hHold, hReceived, hHolds, rfl⟩ := h
  have hNext := hHold.step hStep
  have hReceivedNext := hReceived.internal hInternal
  cases step_cases hStep with
  | main _ loopAction seen loop hLoop hSeen _ _ _ _ hTransfer =>
      have hAccept : ∀ fd memory, loopAction ≠ .accept fd memory := by
        rintro fd memory rfl
        cases action with
        | accept => cases hInternal
        | call other request => cases request <;> cases hSeen
        | _ => cases hSeen
      obtain ⟨passed, ahead, hAfter, hLess⟩ := @loop_stepsLeft state.loop scanned rest _ _ _
        (state.server.callsLeft fun thread => (clients thread).packet) hHolds hAccept hTransfer hLoop
      exact ⟨_, hLess, _, passed, ahead, hNext, hReceivedNext, hAfter, rfl⟩
  | recv => cases hInternal
  | call thread call packet reply server loop hStage hLoop hHandler hServer =>
      obtain ⟨events, hEvents⟩ := hLoop
      obtain rfl := call_inLoop hEvents
      have hPackets : ∀ thread, (clients thread).packet.WellFormed := fun thread => (clients thread).wellFormed
      obtain ⟨calls, hCalls⟩ := hHold.served hReceived
      obtain ⟨completed, hSerial, _⟩ := run_serial hPackets hCalls
      have hPacket : state.packet thread = (clients thread).packet := by
        rw [Sessions.packet, hStage]
        exact hHold.packet_eq hReceived hStage
      have hTurn : threadHandler (fun thread => (clients thread).packet) ⟨thread, call⟩ state.server =
          .ok (reply, server) := (threadHandler_congr hPacket.symm).trans hServer
      have hListed : (state.loop.handler thread).Listed := by
        rcases hHandler with ⟨hRunning, _⟩ | ⟨hDone, _⟩
        · simp [HandlerAt.Listed, hRunning]
        · simp [HandlerAt.Listed, hDone]
      refine ⟨_, ?_, _, scanned, rest, hNext, hReceivedNext, hHolds, rfl⟩
      refine Nat.add_lt_add_left ?_ _
      refine sum_lt_of_thread (hHolds.listed_lt hListed) ?_ fun other hOther => ?_
      · exact Nat.add_lt_add_right (callsLeft_lt hPackets hSerial hInternal hTurn) _
      · exact congrArg (· + _) (callsLeft_other hSerial hTurn hOther)

/-- Whatever happened so far with clients whose chunks are taken as they are,
the server comes to rest unless something more happens outside: there is a
bound on the steps it can take by itself, and where it can take none, every
handler that has its packet has returned. -/
theorem sessions_settle (junk : Nat → Nat → Nat → Byte) (clients : Nat → Client) (actions : List SessionAction)
    (trace : List (SessionAction × SessionEvent)) (state : Sessions) (hReceived : ReceivedFrom clients actions)
    (hRun : run (Sessions.step junk) actions .initial = .ok (trace, state)) :
    ∃ bound, ∀ more, (∀ action ∈ more, action.Internal) → ∀ tail final,
      run (Sessions.step junk) more state = .ok (tail, final) →
        more.length ≤ bound ∧ (final.Enabled junk ∨ final.AtRest) := by
  have hHold := run_sessions hRun
  obtain ⟨scanned, rest, hHolds⟩ := hHold.loopHolds
  obtain ⟨bound, hBound⟩ : ∃ bound, StepsLeft junk clients state bound :=
    ⟨_, actions, scanned, rest, hHold, hReceived, hHolds, rfl⟩
  refine ⟨bound, fun more hInternal tail final hMore => ?_⟩
  obtain ⟨less, hLength, later, _, _, hFinal, hFinalReceived, _, _⟩ := run_length_le (StepsLeft junk clients)
    (fun state action event next count h hStep hAction => h.step hAction.2 hStep)
    hBound (along_and_mem along_true hInternal) hMore
  exact ⟨Nat.le_trans (Nat.le_add_right _ _) hLength, hFinal.progress hFinalReceived⟩

/-- Both handlers return, and the second one's record waits for its scan. -/
theorem sessions_settle_two : ∃ trace state bound tail final,
    run (Sessions.step fun _ _ _ => 255) twoOpening .initial = .ok (trace, state) ∧
      run (Sessions.step fun _ _ _ => 255) twoClosing state = .ok (tail, final) ∧
      twoClosing.length ≤ bound ∧ (final.Enabled (fun _ _ _ => 255) ∨ final.AtRest) := by
  have hInternal : ∀ action ∈ twoClosing, action.Internal := by
    simp [twoClosing, callsOf, SessionAction.Internal, Call.Productive]
  have hShown : (run (Sessions.step fun _ _ _ => 255) (twoOpening ++ twoClosing) .initial).isOk = true := by
    decide +kernel
  cases hRun : run (Sessions.step fun _ _ _ => 255) (twoOpening ++ twoClosing) .initial with
  | error halt =>
      rw [hRun] at hShown
      cases hShown
  | ok result =>
      obtain ⟨trace, state, tail, hOpening, hClosing, _⟩ := run_append_ok_iff.mp hRun
      obtain ⟨bound, hBound⟩ := sessions_settle _ twoClients twoOpening trace state twoClients_received.before hOpening
      obtain ⟨hLength, hEnd⟩ := hBound twoClosing hInternal tail result.2 hClosing
      exact ⟨trace, state, bound, tail, result.2, hOpening, hClosing, hLength, hEnd⟩

end Aesd
