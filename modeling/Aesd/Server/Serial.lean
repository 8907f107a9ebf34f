import Aesd.Driver.Ownership
import Aesd.Server.Handler
import Mathlib.Algebra.Order.BigOperators.Group.List
import Mathlib.Algebra.Order.Ring.Nat

/-! Clients are served as if one at a time. The order is that in which the
threads took the mutex; between two turns the device represents the log of
the data packets that came before. -/
namespace Aesd
open Kernel Execution CommandLog Delimited

/-- The data packets among the packets of some threads, in their order. -/
def dataPackets (packet : Nat → Packet) (order : List Nat) : List (List Byte) :=
  (order.filter fun thread => !(packet thread).isSeek).map fun thread => (packet thread).bytes

/-- What the device has after some turns: the last data packets. -/
def contents (packet : Nat → Packet) (order : List Nat) : List Byte :=
  ((dataPackets packet order).rtake aesdcharMaxWriteOperationsSupported).flatten

def packetLog (packet : Nat → Packet) (order : List Nat) : WriteLog :=
  Log.empty.acceptAll (dataPackets packet order)

/-- A packet that is written ends in its only newline. -/
def Packet.WellFormed (packet : Packet) : Prop :=
  packet.isSeek = true ∨ Log.Terminated newline packet.bytes

/-- Threads in the order in which they took the mutex. -/
def lockOrder (trace : List (Action × Reply)) : List Nat :=
  trace.filterMap fun event => match event.1.call with
    | .lock => some event.1.thread
    | _ => none

/-- Inside the critical section, the threads in `completed` came before. -/
inductive InSection (packet : Nat → Packet) (completed : List Nat) (thread : Nat) (system : System)
    (sent : List Byte) : Phase → Prop where
  | locked (hDevice : Represents system.world (packetLog packet completed)) (hSent : sent = []) :
      InSection packet completed thread system sent .locked
  | opened (hDevice : Represents system.world (packetLog packet completed)) (hSent : sent = []) :
      InSection packet completed thread system sent .opened
  | writing (done left : List Byte) (hData : (packet thread).isSeek = false)
      (hBytes : (packet thread).bytes = done ++ left)
      (hDevice : Represents system.world ((packetLog packet completed).accept done)) (hSent : sent = []) :
      InSection packet completed thread system sent (.writing left)
  | reading (buffered : List Byte)
      (hDevice : Represents system.world (packetLog packet (completed ++ [thread])))
      (hGiven : (packet thread).isSeek = false →
        (system.file thread).fPos = (sent ++ buffered).length ∧
        sent ++ buffered = (contents packet (completed ++ [thread])).take (sent ++ buffered).length) :
      InSection packet completed thread system sent (.reading buffered)
  | drained (hDevice : Represents system.world (packetLog packet (completed ++ [thread])))
      (hSent : (packet thread).isSeek = false → sent = contents packet (completed ++ [thread])) :
      InSection packet completed thread system sent .drained
  | closed (hDevice : Represents system.world (packetLog packet (completed ++ [thread])))
      (hSent : (packet thread).isSeek = false → sent = contents packet (completed ++ [thread])) :
      InSection packet completed thread system sent .closed

/-- A thread that is through: a data client has everything that the device
had after its turn. -/
structure Served (packet : Nat → Packet) (completed : List Nat) (server : Server) (thread : Nat) :
    Prop where
  finished : server.phase thread = .finished
  answered : (packet thread).isSeek = false →
    server.sent thread = contents packet (through thread completed)

/-- The turns that are completed came one after another, and at most one
thread is in the critical section. -/
structure Serial (packet : Nat → Packet) (completed : List Nat) (server : Server) : Prop where
  once : (completed ++ server.mutexLock.toList).Nodup
  served : ∀ thread ∈ completed, Served packet completed server thread
  ready : ∀ thread ∉ completed ++ server.mutexLock.toList,
    server.phase thread = .ready ∧ server.sent thread = []
  unlocked : server.system.world.dev.mxLock = false
  resting : server.mutexLock = none → Represents server.system.world (packetLog packet completed)
  inside : ∀ thread, server.mutexLock = some thread →
    InSection packet completed thread server.system (server.sent thread) (server.phase thread)

variable {packet : Nat → Packet} {order completed : List Nat} {thread other : Nat} {server next : Server}
  {system : System} {world : World} {sent left : List Byte} {phase : Phase} {op : Op}
  {action : Action} {actions : List Action} {trace : List (Action × Reply)} {reply : Reply}

theorem dataPackets_append (first second : List Nat) :
    dataPackets packet (first ++ second) = dataPackets packet first ++ dataPackets packet second := by
  simp [dataPackets]

theorem packetLog_seek (hSeek : (packet thread).isSeek = true) :
    packetLog packet (order ++ [thread]) = packetLog packet order := by
  rw [packetLog, dataPackets_append]
  simp [dataPackets, hSeek, packetLog]

theorem packetLog_data (hData : (packet thread).isSeek = false) :
    packetLog packet (order ++ [thread]) = (packetLog packet order).accept (packet thread).bytes := by
  rw [packetLog, dataPackets_append]
  simp [dataPackets, hData, packetLog, Log.acceptAll]

theorem mem_dataPackets {bytes : List Byte} (h : bytes ∈ dataPackets packet order) :
    ∃ thread, (packet thread).isSeek = false ∧ (packet thread).bytes = bytes := by
  simp only [dataPackets, List.mem_map, List.mem_filter, Bool.not_eq_true'] at h
  obtain ⟨thread, ⟨_, hData⟩, hBytes⟩ := h
  exact ⟨thread, hData, hBytes⟩

/-- Each data packet is one command. -/
theorem packetLog_commands (hPackets : ∀ thread, (packet thread).WellFormed) :
    (packetLog packet order).commands = dataPackets packet order ∧ (packetLog packet order).pending = [] := by
  refine Log.acceptAll_whole rfl fun bytes hBytes => ?_
  obtain ⟨thread, hData, rfl⟩ := mem_dataPackets hBytes
  obtain ⟨body, _, hLine⟩ := (hPackets thread).resolve_left (by simp [hData])
  rw [hLine]
  exact List.mem_append_right _ List.mem_cons_self

theorem lastCommands_packetLog (hPackets : ∀ thread, (packet thread).WellFormed) :
    (lastCommands (packetLog packet order)).flatten = contents packet order := by
  rw [lastCommands, (packetLog_commands hPackets).1, contents]

/-- Ten packets are far from the end of the range of a position. -/
theorem contents_length_lt : (contents packet order).length < 2 ^ 63 := by
  obtain ⟨stored, hStored⟩ : ∃ stored, stored =
    (dataPackets packet order).rtake aesdcharMaxWriteOperationsSupported := ⟨_, rfl⟩
  have hCount : stored.length ≤ 10 := by
    rw [hStored, Ring.rtake_length]
    exact Nat.min_le_right _ _
  have hShort : ∀ length ∈ stored.map List.length, length ≤ 2 ^ 31 := by
    intro length hLength
    obtain ⟨bytes, hBytes, rfl⟩ := List.mem_map.mp hLength
    rw [hStored] at hBytes
    obtain ⟨thread, _, rfl⟩ := mem_dataPackets (List.mem_of_mem_drop hBytes)
    have hPacket := (packet thread).short
    simp only [INT_MAX] at hPacket
    omega
  have hSum := List.sum_le_card_nsmul _ _ hShort
  rw [List.length_map, Nat.nsmul_eq_mul, Segments.sum_map_length] at hSum
  rw [contents, ← hStored]
  omega

theorem storedSize_packetLog (hPackets : ∀ thread, (packet thread).WellFormed)
    (h : Represents world (packetLog packet order)) :
    world.storedSize = (contents packet order).length := by
  rw [h.ring.storedSize, ← lastCommands_packetLog hPackets, lastCommands]

/-- The device answers, with its lock free, and the section goes on behind
the answer; a thread with a seek command leaves the device as it is. -/
def Advances (packet : Nat → Packet) (completed : List Nat) (thread : Nat) (system : System)
    (sent : List Byte) (op : Op) (phase : Reply → Phase) : Prop :=
  ∃ reply next, System.exec op system = .ok (reply, next) ∧ next.world.dev.mxLock = false ∧
    InSection packet completed thread next sent (phase reply) ∧
    ((packet thread).isSeek = true → next.world = system.world)

theorem fopen_advances (hLock : system.world.dev.mxLock = false)
    (h : InSection packet completed thread system sent .locked) :
    Advances packet completed thread system sent (.openFile thread) fun _ => .opened := by
  cases h with
  | locked hDevice hSent => exact ⟨_, _, rfl, hLock, .opened hDevice hSent, fun _ => rfl⟩

theorem ioctl_advances (hLock : system.world.dev.mxLock = false)
    (h : InSection packet completed thread system sent .opened) (hSeek : (packet thread).isSeek = true)
    (call : IoctlCall) :
    Advances packet completed thread system sent (.ioctl thread call) fun _ => .reading [] := by
  cases h with
  | opened hDevice hSent =>
      obtain ⟨reply, next, hExec⟩ := exec_ioctl_ok hLock thread call
      have hWorld := exec_world hExec (by simp)
      refine ⟨reply, next, hExec, hWorld ▸ hLock, .reading [] ?_ ?_, fun _ => hWorld⟩
      · rw [packetLog_seek hSeek, hWorld]
        exact hDevice
      · simp [hSeek]

theorem fclose_advances (hLock : system.world.dev.mxLock = false)
    (h : InSection packet completed thread system sent .drained) :
    Advances packet completed thread system sent (.release thread) fun _ => .closed := by
  cases h with
  | drained hDevice hSent => exact ⟨_, _, rfl, hLock, .closed hDevice hSent, fun _ => rfl⟩

/-- A part of the packet is written. What was written before has no newline,
so the parts add up to one command. -/
theorem flush_advances (hPackets : ∀ thread, (packet thread).WellFormed)
    (hLock : system.world.dev.mxLock = false)
    (h : InSection packet completed thread system sent (.writing left)) (hLeft : left ≠ [])
    (size copied : Nat) (junk : Nat → Byte) :
    Advances packet completed thread system sent
      (.write thread ⟨some (left.take size), false, true, copied, junk⟩)
      fun reply => .writing (left.drop reply.retval.toNat) := by
  cases h with
  | writing done _ hData hBytes hDevice hSent =>
      have hDone : newline ∉ done := by
        obtain ⟨body, hBody, hLine⟩ := (hPackets thread).resolve_left (by simp [hData])
        intro hMem
        have hInit : done ++ left.dropLast = body := by
          rw [← List.dropLast_append_of_ne_nil hLeft, ← hBytes, hLine, List.dropLast_concat]
        exact hBody (hInit ▸ List.mem_append_left _ hMem)
      obtain ⟨world, hWrite, hNext, hFree⟩ :=
        @aesdWrite_served system.world (left.take size) _ ⟨some (left.take size), false, true, copied, junk⟩
          hDevice rfl rfl hLock (Or.inl rfl)
      obtain ⟨piece, hPiece⟩ : ∃ piece, piece = (left.take size).take copied := ⟨_, rfl⟩
      rw [← hPiece, Log.accept_accept hDone] at hNext
      have hRest : piece ++ left.drop piece.length = left := by
        rw [hPiece, List.take_take, List.length_take, List.take_eq_take_min, List.take_append_drop]
      refine ⟨⟨piece.length, []⟩, { system with world }, ?_, hFree, ?_, ?_⟩
      · simp [System.exec, hWrite, hPiece, bind, Except.bind, pure, Except.pure]
      · refine .writing (done ++ piece) _ hData ?_ hNext hSent
        rw [Int.toNat_natCast, List.append_assoc, hRest]
        exact hBytes
      · simp [hData]

theorem rewind_advances (hLock : system.world.dev.mxLock = false)
    (h : InSection packet completed thread system sent (.writing [])) :
    Advances packet completed thread system sent (.llseek thread 0 SEEK_SET) fun _ => .reading [] := by
  cases h with
  | writing done _ hData hBytes hDevice hSent =>
      rw [List.append_nil] at hBytes
      refine ⟨_, _, exec_llseek thread 0 SEEK_SET, hLock, .reading [] ?_ fun _ => ?_, fun _ => rfl⟩
      · rw [packetLog_data hData, hBytes]
        exact hDevice
      · simp [hSent, aesdLlseek]

/-- A read hands on what comes next, and nothing only at the end. -/
theorem fread_advances (hPackets : ∀ thread, (packet thread).WellFormed)
    (hLock : system.world.dev.mxLock = false)
    (h : InSection packet completed thread system sent (.reading [])) {count : Nat} (hCount : 0 < count) :
    Advances packet completed thread system sent (.read thread ⟨true, count, false⟩)
      fun reply => if 0 < reply.retval then .reading reply.data else .drained := by
  cases h with
  | reading _ hDevice hGiven =>
      have hSize := storedSize_packetLog hPackets hDevice
      have hLess := @contents_length_lt packet (completed ++ [thread])
      cases hSeek : (packet thread).isSeek with
      | true =>
          obtain ⟨reply, next, hExec⟩ := exec_read_ok hDevice (by omega) thread ⟨true, count, false⟩
          have hWorld := exec_world hExec (by simp)
          refine ⟨reply, next, hExec, hWorld ▸ hLock, ?_, fun _ => hWorld⟩
          rw [← hWorld] at hDevice
          dsimp only
          split
          · exact .reading _ hDevice (by simp [hSeek])
          · exact .drained hDevice (by simp [hSeek])
      | false =>
          obtain ⟨hPosition, hTaken⟩ := hGiven hSeek
          rw [List.append_nil] at hPosition hTaken
          have hFits : sent.length ≤ (contents packet (completed ++ [thread])).length := by
            rw [hTaken]
            exact List.length_take_le' _ _
          obtain ⟨reply, next, hExec, hExact, _, hData, hMoved⟩ :=
            @exec_read_exact system _ ⟨true, count, false⟩ thread hDevice
              (by rw [System.InRange, hPosition]; omega) (by omega) hCount
          rw [lastCommands_packetLog hPackets, hPosition, Int.toNat_natCast] at hData
          have hWorld := exec_world hExec (by simp)
          refine ⟨reply, next, hExec, hWorld ▸ hLock, ?_, fun _ => hWorld⟩
          rw [← hWorld] at hDevice
          have hRetval := hExact.succeeds rfl rfl
          dsimp only
          split
          · refine .reading _ hDevice fun _ => ⟨by rw [hMoved, hPosition]; simp, ?_⟩
            rw [List.length_append, List.take_add, ← hTaken, ← hData]
          · next hNone =>
            have hEnd := (hExact.ended hRetval).mp (by omega)
            refine .drained hDevice fun _ => ?_
            rw [hTaken, List.take_of_length_le (by omega)]

/-- Who takes the mutex in a step. -/
def Action.lockedBy (action : Action) : Option Nat :=
  match action.call with
  | .lock => some action.thread
  | _ => none

/-- Everything that a step of a thread can do: wait, be out of order, or go on
in the one order. It is never the device that holds it up. -/
inductive StepOutcome (packet : Nat → Packet) (completed : List Nat) (server : Server) (action : Action) :
    Except Halt (Reply × Server) → Prop where
  | mutex : StepOutcome packet completed server action (.error .mutex)
  | order : StepOutcome packet completed server action (.error .order)
  | moved (reply : Reply) (next : Server) (later : List Nat) (hNext : Serial packet later next)
      (hOrder : later ++ next.mutexLock.toList =
        completed ++ server.mutexLock.toList ++ action.lockedBy.toList)
      (hSeek : (packet action.thread).isSeek = true → next.system.world = server.system.world) :
      StepOutcome packet completed server action (.ok (reply, next))

namespace Serial

theorem initial : Serial packet [] Server.initial where
  once := List.nodup_nil
  served := by simp
  ready := fun _ _ => ⟨rfl, rfl⟩
  unlocked := rfl
  resting := fun _ => represents_initial
  inside := by simp [Server.initial]

/-- Only the thread that has the mutex is neither ready nor finished. -/
theorem mutexLock_eq (h : Serial packet completed server) (hStarted : server.phase thread ≠ .ready)
    (hGoing : server.phase thread ≠ .finished) : server.mutexLock = some thread := by
  by_contra hNot
  have hOther : thread ∉ server.mutexLock.toList := by simpa [Option.mem_toList] using hNot
  by_cases hBefore : thread ∈ completed
  · exact hGoing (h.served thread hBefore).finished
  · exact hStarted (h.ready thread (by simp [hBefore, hOther])).1

theorem inside_of_phase (h : Serial packet completed server) (hPhase : server.phase thread = phase)
    (hStarted : phase ≠ .ready) (hGoing : phase ≠ .finished) : server.mutexLock = some thread ∧
      InSection packet completed thread server.system (server.sent thread) phase := by
  subst hPhase
  have hMutex := h.mutexLock_eq hStarted hGoing
  exact ⟨hMutex, h.inside thread hMutex⟩

/-- What the thread in the critical section does there concerns no other. -/
theorem goOn (h : Serial packet completed server) (hMutex : server.mutexLock = some thread)
    (hSame : next.mutexLock = server.mutexLock)
    (hPhase : ∀ other, other ≠ thread → next.phase other = server.phase other)
    (hSent : ∀ other, other ≠ thread → next.sent other = server.sent other)
    (hFree : next.system.world.dev.mxLock = false)
    (hInside : InSection packet completed thread next.system (next.sent thread) (next.phase thread)) :
    Serial packet completed next := by
  have hOnce := h.once
  have hReady := h.ready
  rw [hMutex] at hSame hOnce hReady
  have hBefore : ∀ other ∈ completed, other ≠ thread := by
    rintro other hOther rfl
    exact List.disjoint_of_nodup_append hOnce hOther (by simp)
  refine ⟨?_, ?_, ?_, hFree, ?_, ?_⟩
  · rw [hSame]
    exact hOnce
  · intro other hOther
    obtain ⟨hFinished, hAnswered⟩ := h.served other hOther
    have hNe := hBefore other hOther
    exact ⟨(hPhase other hNe).trans hFinished, fun hData => (hSent other hNe).trans (hAnswered hData)⟩
  · intro other hOther
    rw [hSame] at hOther
    have hNe : other ≠ thread := (ne_of_mem_of_not_mem (by simp) hOther).symm
    obtain ⟨hOtherReady, hNothing⟩ := hReady other hOther
    exact ⟨(hPhase other hNe).trans hOtherReady, (hSent other hNe).trans hNothing⟩
  · intro hNone
    rw [hSame] at hNone
    cases hNone
  · intro other hOther
    rw [hSame] at hOther
    cases hOther
    exact hInside

theorem perform (h : Serial packet completed server) (hPhase : server.phase thread = phase)
    (hStarted : phase ≠ .ready) (hGoing : phase ≠ .finished) {call : Call} (hCall : call ≠ .lock)
    {answered : Reply → Phase}
    (hAdvances : InSection packet completed thread server.system (server.sent thread) phase →
      Advances packet completed thread server.system (server.sent thread) op answered) :
    StepOutcome packet completed server ⟨thread, call⟩ (server.perform thread op answered) := by
  obtain ⟨hMutex, hInside⟩ := h.inside_of_phase hPhase hStarted hGoing
  obtain ⟨reply, system, hExec, hFree, hNext, hSeek⟩ := hAdvances hInside
  simp only [Server.perform, hExec]
  refine .moved reply _ completed ?_ ?_ hSeek
  · refine h.goOn hMutex rfl (fun other hOther => moveTo_phase_of_ne hOther) (fun _ _ => rfl) hFree ?_
    rw [moveTo_phase_self]
    exact hNext
  · cases call <;> simp_all [Action.lockedBy, Server.moveTo]

theorem lock (h : Serial packet completed server) (hFree : server.mutexLock = none)
    (hPhase : server.phase thread = .ready) :
    Serial packet completed ({ server with mutexLock := some thread }.moveTo thread .locked) := by
  have hOnce := h.once
  have hReady := h.ready
  simp only [hFree, Option.toList_none, List.append_nil] at hOnce hReady
  have hNew : thread ∉ completed := by
    intro hBefore
    have hFinished := (h.served thread hBefore).finished
    rw [hPhase] at hFinished
    cases hFinished
  refine ⟨?_, ?_, ?_, h.unlocked, fun hNone => (by cases hNone), ?_⟩
  · exact hOnce.append (List.nodup_singleton thread) (List.disjoint_singleton.mpr hNew)
  · intro other hOther
    obtain ⟨hFinished, hAnswered⟩ := h.served other hOther
    have hNe : other ≠ thread := ne_of_mem_of_not_mem hOther hNew
    exact ⟨(moveTo_phase_of_ne hNe).trans hFinished, hAnswered⟩
  · intro other hOther
    simp only [Server.moveTo, Option.toList_some, List.mem_append, List.mem_singleton, not_or] at hOther
    obtain ⟨hOtherReady, hNothing⟩ := hReady other hOther.1
    exact ⟨(moveTo_phase_of_ne hOther.2).trans hOtherReady, hNothing⟩
  · intro other hOther
    cases hOther
    rw [moveTo_phase_self]
    exact .locked (h.resting hFree) (hReady thread hNew).2

/-- The turn is over: its packet is the last one of those that came before. -/
theorem unlock (h : Serial packet completed server) (hPhase : server.phase thread = .closed) :
    Serial packet (completed ++ [thread]) ({ server with mutexLock := none }.moveTo thread .finished) := by
  obtain ⟨hMutex, hInside⟩ := h.inside_of_phase hPhase (by simp) (by simp)
  have hOnce := h.once
  have hReady := h.ready
  simp only [hMutex, Option.toList_some] at hOnce hReady
  have hNew : thread ∉ completed := fun hBefore =>
    List.disjoint_of_nodup_append hOnce hBefore List.mem_cons_self
  cases hInside with
  | closed hDevice hSent =>
      refine ⟨by simpa [Server.moveTo] using hOnce, ?_, ?_, h.unlocked, fun _ => hDevice,
        fun other hOther => (by cases hOther)⟩
      · intro other hOther
        rcases List.mem_append.mp hOther with hBefore | hLast
        · obtain ⟨hFinished, hAnswered⟩ := h.served other hBefore
          have hNe : other ≠ thread := ne_of_mem_of_not_mem hBefore hNew
          refine ⟨(moveTo_phase_of_ne hNe).trans hFinished, ?_⟩
          rw [through_append_of_mem hBefore]
          exact hAnswered
        · obtain rfl := List.mem_singleton.mp hLast
          refine ⟨moveTo_phase_self, ?_⟩
          rw [through_append_of_not_mem hNew, show through other [other] = [other] by simp [through]]
          exact hSent
      · intro other hOther
        simp only [Server.moveTo, Option.toList_none, List.append_nil] at hOther
        obtain ⟨hOtherReady, hNothing⟩ := hReady other hOther
        have hNe : other ≠ thread := (ne_of_mem_of_not_mem (by simp) hOther).symm
        exact ⟨(moveTo_phase_of_ne hNe).trans hOtherReady, hNothing⟩

/-- The whole packet is in the stream, and nothing of it in the device. -/
theorem fwrite (h : Serial packet completed server) (hPhase : server.phase thread = .opened)
    (hData : (packet thread).isSeek = false) :
    Serial packet completed (server.moveTo thread (.writing (packet thread).bytes)) := by
  obtain ⟨hMutex, hInside⟩ := h.inside_of_phase hPhase (by simp) (by simp)
  refine h.goOn hMutex rfl (fun other hOther => moveTo_phase_of_ne hOther) (fun _ _ => rfl) h.unlocked ?_
  rw [moveTo_phase_self]
  cases hInside with
  | opened hDevice hSent =>
      exact .writing [] (packet thread).bytes hData rfl (by rw [Log.accept_nil]; exact hDevice) hSent

/-- A byte that was read ahead is sent. -/
theorem send {byte : Byte} {rest : List Byte} (h : Serial packet completed server)
    (hPhase : server.phase thread = .reading (byte :: rest)) :
    Serial packet completed ({ server with
      sent := Function.update server.sent thread (server.sent thread ++ [byte]) }.moveTo thread
        (.reading rest)) := by
  obtain ⟨hMutex, hInside⟩ := h.inside_of_phase hPhase (by simp) (by simp)
  refine h.goOn hMutex rfl (fun other hOther => moveTo_phase_of_ne hOther)
    (fun other hOther => Function.update_of_ne hOther _ _) h.unlocked ?_
  rw [moveTo_phase_self]
  cases hInside with
  | reading _ hDevice hGiven =>
      refine .reading rest hDevice fun hData => ?_
      simpa [Server.moveTo] using hGiven hData

end Serial

/-- One step of any thread, from where the turns have come one after another. -/
theorem threadHandler_outcome (hPackets : ∀ thread, (packet thread).WellFormed)
    (h : Serial packet completed server) (action : Action) :
    StepOutcome packet completed server action (threadHandler packet action server) := by
  obtain ⟨thread, call⟩ := action
  have hLock := h.unlocked
  simp only [threadHandler]
  split
  · next hPhase =>
    split
    · next hFree =>
      exact .moved _ _ completed (h.lock hFree hPhase) (by simp [Action.lockedBy, hFree, Server.moveTo])
        fun _ => rfl
    · exact .mutex
  · next hPhase =>
    exact h.perform hPhase (by simp) (by simp) (by simp) fun hInside => fopen_advances hLock hInside
  · next hPhase =>
    split
    · next seekParams hArgs =>
      exact h.perform hPhase (by simp) (by simp) (by simp) fun hInside =>
        ioctl_advances hLock hInside (ioctlArgs_eq_some_iff.mp hArgs).1 _
    · exact .order
  · next hPhase =>
    split
    · exact .order
    · next hData =>
      exact .moved _ _ completed (h.fwrite hPhase (Bool.eq_false_of_not_eq_true hData))
        (by simp [Action.lockedBy, Server.moveTo]) fun _ => rfl
  · next size copied junk left hPhase =>
    split
    · exact .order
    · next hLeft =>
      exact h.perform hPhase (by simp) (by simp) (by simp) fun hInside =>
        flush_advances hPackets hLock hInside hLeft size copied junk
  · next hPhase =>
    exact h.perform hPhase (by simp) (by simp) (by simp) fun hInside => rewind_advances hLock hInside
  · next count hPhase =>
    split
    · exact .order
    · next hCount =>
      exact h.perform hPhase (by simp) (by simp) (by simp) fun hInside =>
        fread_advances hPackets hLock hInside (Nat.pos_of_ne_zero hCount)
  · next byte rest hPhase =>
    exact .moved _ _ completed (h.send hPhase) (by simp [Action.lockedBy, Server.moveTo]) fun _ => rfl
  · next hPhase =>
    exact h.perform hPhase (by simp) (by simp) (by simp) fun hInside => fclose_advances hLock hInside
  · next hPhase =>
    obtain ⟨hMutex, _⟩ := h.inside_of_phase hPhase (by simp) (by simp)
    exact .moved _ _ (completed ++ [thread]) (h.unlock hPhase)
      (by simp [Action.lockedBy, hMutex, Server.moveTo]) fun _ => rfl
  · exact .order

theorem lockOrder_concat (event : Action × Reply) :
    lockOrder (trace ++ [event]) = lockOrder trace ++ event.1.lockedBy.toList := by
  simp only [lockOrder, List.filterMap_append, List.append_cancel_left_eq]
  cases hCall : event.1.call <;> simp [Action.lockedBy, hCall]

/-- After any run the threads have had their turns in the order of the mutex;
at most the last of them is still inside. -/
theorem run_serial (hPackets : ∀ thread, (packet thread).WellFormed)
    (hRun : run (threadHandler packet) actions Server.initial = .ok (trace, server)) :
    ∃ completed, Serial packet completed server ∧
      lockOrder trace = completed ++ server.mutexLock.toList :=
  run_induct (fun history server => ∃ completed, Serial packet completed server ∧
      lockOrder history = completed ++ server.mutexLock.toList)
    (fun history server action reply next ⟨completed, hSerial, hOrder⟩ hStep _ => by
      have hOutcome := threadHandler_outcome hPackets hSerial action
      rw [hStep] at hOutcome
      cases hOutcome with
      | moved _ _ later hNext hLater =>
          refine ⟨later, hNext, ?_⟩
          rw [lockOrder_concat, hOrder, hLater])
    [] ⟨[], Serial.initial, rfl⟩ along_true hRun

/-- Nobody waits for the device, and no access of it goes astray. -/
theorem run_ne_device (hPackets : ∀ thread, (packet thread).WellFormed) (stop : Stop) :
    run (threadHandler packet) actions Server.initial ≠ .error (.device stop) := by
  refine run_ne_error (fun server => ∃ completed, Serial packet completed server) ?_ ?_
    ⟨[], Serial.initial⟩
  · rintro server action reply next ⟨completed, hSerial⟩ hStep
    have hOutcome := threadHandler_outcome hPackets hSerial action
    rw [hStep] at hOutcome
    cases hOutcome with
    | moved _ _ later hNext => exact ⟨later, hNext⟩
  · rintro server action ⟨completed, hSerial⟩ hStop
    have hOutcome := threadHandler_outcome hPackets hSerial action
    rw [hStop] at hOutcome
    cases hOutcome

/-- A step of a client that seeks. -/
def SeekKeepsDevice (packet : Nat → Packet) (server : Server) (action : Action) (next : Server) : Prop :=
  (packet action.thread).isSeek = true → next.system.world = server.system.world

theorem run_seek (hPackets : ∀ thread, (packet thread).WellFormed) :
    Along (threadHandler packet) (SeekKeepsDevice packet) actions Server.initial := by
  rw [along_iff_split]
  intro before action after trace server reply next _ hRun hStep
  obtain ⟨completed, hSerial, _⟩ := run_serial hPackets hRun
  have hOutcome := threadHandler_outcome hPackets hSerial action
  rw [hStep] at hOutcome
  cases hOutcome with
  | moved _ _ _ _ _ hSeek => exact hSeek

/-- What the clients and the device have, as if the packets had come one
after another in the given order. -/
structure ServedInTurns (packet : Nat → Packet) (order : List Nat) (server : Server) : Prop where
  once : order.Nodup
  started : ∀ thread, thread ∈ order ↔ server.phase thread ≠ .ready
  stored : server.mutexLock = none →
    server.system.world.stored =
      ((dataPackets packet order).rtake aesdcharMaxWriteOperationsSupported).map .ok ∧
    server.system.world.pending = .ok []
  answered : ∀ thread, server.phase thread = .finished → (packet thread).isSeek = false →
    server.sent thread = contents packet (through thread order)

theorem InSection.phase_ne (h : InSection packet completed thread system sent phase) :
    phase ≠ .ready ∧ phase ≠ .finished := by
  cases h <;> simp

theorem Serial.servedInTurns (hPackets : ∀ thread, (packet thread).WellFormed)
    (h : Serial packet completed server) :
    ServedInTurns packet (completed ++ server.mutexLock.toList) server where
  once := h.once
  started := by
    intro thread
    constructor
    · intro hMem
      rcases List.mem_append.mp hMem with hBefore | hLast
      · rw [(h.served thread hBefore).finished]
        simp
      · exact (h.inside thread (Option.mem_toList.mp hLast)).phase_ne.1
    · intro hStarted
      by_contra hNot
      exact hStarted (h.ready thread hNot).1
  stored := by
    intro hFree
    have hDevice := h.resting hFree
    obtain ⟨hCommands, hPending⟩ := packetLog_commands hPackets
    rw [hFree, Option.toList_none, List.append_nil]
    exact ⟨hCommands ▸ hDevice.ring.stored, hPending ▸ (hDevice.tmp h.unlocked).pending⟩
  answered := by
    intro thread hFinished hData
    have hBefore : thread ∈ completed := by
      by_contra hNot
      by_cases hInside : server.mutexLock = some thread
      · exact (h.inside thread hInside).phase_ne.2 hFinished
      · have hReady := (h.ready thread (by simp [hNot, Option.mem_toList, hInside])).1
        rw [hFinished] at hReady
        cases hReady
    rw [through_append_of_mem hBefore]
    exact (h.served thread hBefore).answered hData

/-- For any number of clients and any interleaving of their threads: the
device does not hold them up, a seek leaves it as it is, and it has and they
get what the order of the mutex says. -/
theorem served_in_turns (packet : Nat → Packet) (hPackets : ∀ thread, (packet thread).WellFormed)
    (actions : List Action) :
    (∀ stop, run (threadHandler packet) actions Server.initial ≠ .error (.device stop)) ∧
    Along (threadHandler packet) (SeekKeepsDevice packet) actions Server.initial ∧
    ∀ trace server, run (threadHandler packet) actions Server.initial = .ok (trace, server) →
      ServedInTurns packet (lockOrder trace) server := by
  refine ⟨run_ne_device hPackets, run_seek hPackets, fun trace server hRun => ?_⟩
  obtain ⟨completed, hSerial, hOrder⟩ := run_serial hPackets hRun
  rw [hOrder]
  exact hSerial.servedInTurns hPackets

/-- Three clients: threads 0 and 1 send a line, thread 2 a seek command. -/
def threePackets (thread : Nat) : Packet :=
  if thread = 2 then ⟨ioctlString ++ [48, 44, 49, newline], by decide, by decide⟩
  else if thread = 1 then ⟨[98, newline], by decide, by decide⟩
  else ⟨[97, newline], by decide, by decide⟩

def turn (thread : Nat) (calls : List Call) : List Action := calls.map fun call => ⟨thread, call⟩

/-- The line is written in two parts; every byte is read on its own. -/
def threeTurns : List Action :=
  turn 1 ([.lock, .fopen, .fwrite, .flush 1 1 fun _ => 0, .flush 9 9 fun _ => 0, .rewind,
    .fread 1, .send, .fread 1, .send, .fread 1, .fclose, .unlock]) ++
  turn 2 ([.lock, .fopen, .ioctl ⟨7, 7⟩ false .zero, .fread 9, .send, .fread 9, .fclose, .unlock]) ++
  turn 0 ([.lock, .fopen, .fwrite, .flush 9 9 fun _ => 0, .rewind,
    .fread 1, .send, .fread 1, .send, .fread 1, .send, .fread 1, .send, .fread 1, .fclose, .unlock])

theorem served_in_turns_three : ∃ trace server,
    run (threadHandler threePackets) threeTurns Server.initial = .ok (trace, server) ∧
      ServedInTurns threePackets [1, 2, 0] server ∧ server.sent 0 = [98, newline, 97, newline] := by
  obtain ⟨trace, server, hRun, hOrder, hSent⟩ : ∃ trace server,
      run (threadHandler threePackets) threeTurns Server.initial = .ok (trace, server) ∧
        lockOrder trace = [1, 2, 0] ∧ server.sent 0 = [98, newline, 97, newline] :=
    ⟨_, _, rfl, rfl, rfl⟩
  refine ⟨trace, server, hRun, ?_, hSent⟩
  rw [← hOrder]
  refine (served_in_turns threePackets (fun thread => ?_) threeTurns).2.2 trace server hRun
  unfold threePackets
  split
  · exact Or.inl (by decide)
  · split
    · exact Or.inr ⟨[98], by decide, rfl⟩
    · exact Or.inr ⟨[97], by decide, rfl⟩

end Aesd
