import Aesd.Driver.Refinement
import Aesd.Server.SeekCommand
import Aesd.Server.Serial

/-! What a client that seeks is sent. Its turn leaves the device as it is; it
reads the commands that came before it, from the byte on that its packet
names in the order of the slots. -/
namespace Aesd
open Kernel Word Execution CommandLog Delimited

/-- Where a file is after the seek, if it was at its start before. -/
def seekStart (commands : List (List Byte)) (seekCmd : AesdSeekto) : Nat :=
  let slots := Ring.bySlot aesdcharMaxWriteOperationsSupported commands
  match slots[seekCmd.writeCmd.toNat]? with
  | none => 0
  | some command =>
      if command.length < seekCmd.writeCmdOffset.toNat then 0
      else (slots.take seekCmd.writeCmd.toNat).flatten.length + seekCmd.writeCmdOffset.toNat

/-- The packet names both numbers of a seek, and no slot behind the array. -/
def Packet.Seeks (packet : Packet) (seekCmd : AesdSeekto) : Prop :=
  seekCmd.writeCmd.toNat ≠ aesdcharMaxWriteOperationsSupported ∧
    ∃ first second, packet.Names first second ∧ seekCmd = ⟨stored32 first, stored32 second⟩

/-- What the device has after some turns, without what the seek skips. -/
def seekContents (packet : Nat → Packet) (order : List Nat) (seekCmd : AesdSeekto) : List Byte :=
  (contents packet order).drop (seekStart (dataPackets packet order) seekCmd)

/-- A step in which no seek call is interrupted. -/
def Action.Uninterrupted (action : Action) : Prop :=
  ∀ stack interrupted stray, action.call = .ioctl stack interrupted stray → interrupted = false

/-- Where the thread with a seek is in its answer. -/
def SeekInside (packet : Nat → Packet) (completed : List Nat) (seekCmd : AesdSeekto) (position : Int)
    (sent : List Byte) : Phase → Prop
  | .opened => position = 0
  | .reading buffered =>
      position = (seekStart (dataPackets packet completed) seekCmd + (sent ++ buffered).length : Nat) ∧
        position < 2 ^ 63 ∧
        sent ++ buffered = (seekContents packet completed seekCmd).take (sent ++ buffered).length
  | .drained => sent = seekContents packet completed seekCmd
  | .closed => sent = seekContents packet completed seekCmd
  | _ => True

/-- The seeks that are through, and the one that is inside. -/
structure SeeksHold (packet : Nat → Packet) (completed : List Nat) (server : Server) : Prop where
  served : ∀ thread ∈ completed, ∀ seekCmd, (packet thread).Seeks seekCmd →
    server.sent thread = seekContents packet (through thread completed) seekCmd
  inside : ∀ thread, server.mutexLock = some thread → ∀ seekCmd, (packet thread).Seeks seekCmd →
    SeekInside packet completed seekCmd (server.system.file thread).fPos (server.sent thread)
      (server.phase thread)

variable {packet : Nat → Packet} {order completed : List Nat} {thread other fd : Nat} {server next : Server}
  {system after : System} {commands : List (List Byte)} {seekCmd : AesdSeekto} {stray : AesdBufferEntry}
  {reply : Reply} {action : Action} {actions : List Action} {trace : List (Action × Reply)} {call : Call}

theorem seekStart_le : seekStart commands seekCmd ≤
    (commands.rtake aesdcharMaxWriteOperationsSupported).flatten.length := by
  obtain ⟨slots, hSlots⟩ : ∃ slots, slots = Ring.bySlot aesdcharMaxWriteOperationsSupported commands := ⟨_, rfl⟩
  have hSize : slots.flatten.length = (commands.rtake aesdcharMaxWriteOperationsSupported).flatten.length := by
    rw [hSlots]
    exact ((List.rotate_perm _ _).flatten).length_eq
  rw [seekStart, ← hSlots, ← hSize]
  split
  · exact Nat.zero_le _
  · next command hCommand =>
    split
    · exact Nat.zero_le _
    · next hInside =>
      obtain ⟨hSlot, rfl⟩ := List.getElem?_eq_some_iff.mp hCommand
      have hSplit := congrArg (fun list => list.flatten.length) (List.take_append_drop seekCmd.writeCmd.toNat slots)
      rw [List.drop_eq_getElem_cons hSlot] at hSplit
      simp only [List.flatten_append, List.flatten_cons, List.length_append] at hSplit
      omega

/-- A seek to a slot without a command moves nothing. -/
theorem aesdIoctl_unmoved {world changed : World} {filp moved : File} {retval : Int} {call : IoctlCall}
    (h : RingHolds world commands) (hArg : call.arg = some seekCmd)
    (hCmd : seekCmd.writeCmd.toNat ≠ aesdcharMaxWriteOperationsSupported)
    (hVacant : (commands.rtake aesdcharMaxWriteOperationsSupported).length ≤ seekCmd.writeCmd.toNat)
    (hIoctl : aesdIoctl call world filp = .ok (retval, changed, moved)) : moved = filp := by
  have hOutcome := @aesdIoctl_seekOutcome filp call _ _ h (by
    rintro named hNamed
    cases hArg.symm.trans hNamed
    exact hCmd)
  rw [hIoctl] at hOutcome
  cases hOutcome with
  | rejected => rfl
  | moved named hNamed hStored =>
      cases hArg.symm.trans hNamed
      exact absurd hStored (Nat.not_lt_of_le hVacant)

/-- A seek on a file that is at its start takes it to the byte it names. -/
theorem exec_seek (h : RingHolds system.world commands) (hLock : system.world.dev.mxLock = false)
    (hStored : system.world.storedSize < 2 ^ 63)
    (hCmd : seekCmd.writeCmd.toNat ≠ aesdcharMaxWriteOperationsSupported)
    (hStart : (system.file fd).fPos = 0)
    (hExec : System.exec (.ioctl fd (seekCall seekCmd stray)) system = .ok (reply, after)) :
    (after.file fd).fPos = seekStart commands seekCmd := by
  obtain ⟨filp, hIoctl, rfl⟩ := exec_ioctl hExec
  generalize reply.retval = retval at hIoctl
  have hLength : (Ring.bySlot aesdcharMaxWriteOperationsSupported commands).length =
      (commands.rtake aesdcharMaxWriteOperationsSupported).length := by
    rw [Ring.bySlot_length, Ring.rtake_length]
  have hTotal := h.storedSize
  rw [setFile_file_self, seekStart]
  by_cases hSlot : seekCmd.writeCmd.toNat < (Ring.bySlot aesdcharMaxWriteOperationsSupported commands).length
  · have hSum := h.sizesByIndex_eq (Nat.le_of_lt hSlot)
    have hMono := @sizesByIndex_mono system.world.dev.aesdCb _ _ hSlot
    rw [hLength, sizesByIndex_stored h, sizesByIndex_succ, h.slot_size hSlot] at hMono
    rw [aesdIoctl_stored h hLock (hLength ▸ hSlot), h.slot_size hSlot] at hIoctl
    rw [List.getElem?_eq_getElem hSlot]
    dsimp only
    split at hIoctl
    · next hBehind =>
      cases hIoctl
      rw [if_pos hBehind, hStart]
      rfl
    · next hInside =>
      simp only [Except.ok.injEq, Prod.mk.injEq] at hIoctl
      rw [if_neg hInside, ← hIoctl.2.2, ← hSum]
      dsimp only
      rw [signed64_of_range (by omega) (by omega), Int.natCast_add]
  · have hUnmoved := aesdIoctl_unmoved h rfl hCmd (hLength ▸ Nat.le_of_not_lt hSlot) hIoctl
    rw [List.getElem?_eq_none (Nat.le_of_not_lt hSlot), hUnmoved, hStart]
    rfl

theorem Packet.Seeks.isSeek {packet : Packet} (h : packet.Seeks seekCmd) : packet.isSeek = true := by
  obtain ⟨_, first, second, ⟨input, _, _, hBytes, _⟩, _⟩ := h
  exact Packet.isSeek_iff.mpr ⟨input, hBytes⟩

theorem Packet.Seeks.sscanf_eq {packet : Packet} (h : packet.Seeks seekCmd) (stack : AesdSeekto) :
    sscanf packet.bytes stack = seekCmd := by
  obtain ⟨_, first, second, hNames, rfl⟩ := h
  exact sscanf_of_names hNames

/-- The answer begins where the seek has taken the file. -/
theorem seek_begin : SeekInside packet completed seekCmd (seekStart (dataPackets packet completed) seekCmd : Nat)
    [] (.reading []) := by
  refine ⟨rfl, ?_, rfl⟩
  have hLe := @seekStart_le (dataPackets packet completed) seekCmd
  have hLess := @contents_length_lt packet completed
  rw [contents] at hLess
  omega

/-- A read goes on where the answer is. -/
theorem seek_read {sent : List Byte} {count : Nat} (hPackets : ∀ thread, (packet thread).WellFormed)
    (hSeek : (packet thread).isSeek = true)
    (hInside : InSection packet completed thread system sent (.reading []))
    (h : SeekInside packet completed seekCmd (system.file thread).fPos sent (.reading [])) (hCount : 0 < count)
    (hExec : System.exec (.read thread ⟨true, count, false⟩) system = .ok (reply, after)) :
    SeekInside packet completed seekCmd (after.file thread).fPos sent
      (if 0 < reply.retval then .reading reply.data else .drained) := by
  cases hInside with
  | reading _ hDevice =>
      obtain ⟨hPosition, hRange, hTaken⟩ := h
      rw [List.append_nil] at hPosition hTaken
      rw [packetLog_seek hSeek] at hDevice
      have hSize := storedSize_packetLog hPackets hDevice
      have hLess := @contents_length_lt packet completed
      obtain ⟨_, _, hSame, hExact, hNext, hData, hMoved⟩ :=
        @exec_read_exact system _ ⟨true, count, false⟩ thread hDevice
          ⟨by rw [hPosition]; omega, hRange⟩ (by omega) hCount
      cases hExec.symm.trans hSame
      rw [lastCommands_packetLog hPackets, hPosition, Int.toNat_natCast] at hData
      have hRetval := hExact.succeeds rfl rfl
      split
      · refine ⟨?_, hNext.2, ?_⟩
        · rw [hMoved, hPosition]
          simp only [List.length_append]
          omega
        · rw [List.length_append, List.take_add, ← hTaken, seekContents, List.drop_drop, ← hData]
      · next hNone =>
        have hEnd := (hExact.ended hRetval).mp (by omega)
        rw [hPosition, hSize] at hEnd
        refine hTaken.trans (List.take_of_length_le ?_)
        rw [seekContents, List.length_drop]
        omega

/-- What a call of the thread inside makes of its answer. -/
theorem seek_inside (hPackets : ∀ thread, (packet thread).WellFormed) (hSerial : Serial packet completed server)
    (hMutex : server.mutexLock = some thread) (hSeeks : (packet thread).Seeks seekCmd)
    (hQuiet : (⟨thread, call⟩ : Action).Uninterrupted)
    (h : SeekInside packet completed seekCmd (server.system.file thread).fPos (server.sent thread)
      (server.phase thread))
    (hStep : threadHandler packet ⟨thread, call⟩ server = .ok (reply, next)) (hCall : call ≠ .unlock) :
    SeekInside packet completed seekCmd (next.system.file thread).fPos (next.sent thread) (next.phase thread) := by
  have hSection := hSerial.inside thread hMutex
  have hSeek := hSeeks.isSeek
  simp only [threadHandler] at hStep
  split at hStep
  · split at hStep
    · next hFree => cases hMutex.symm.trans hFree
    · cases hStep
  · next hPhase =>
    obtain ⟨system, hExec, rfl⟩ := perform_ok hStep
    cases hExec
    rw [moveTo_phase_self]
    show ((server.system.setFile thread aesdOpen.2).file thread).fPos = 0
    rw [setFile_file_self]
    rfl
  · next stack interrupted stray hPhase =>
    rw [ioctlArgs_of_isSeek hSeek, hSeeks.sscanf_eq] at hStep
    obtain ⟨system, hExec, rfl⟩ := perform_ok hStep
    rw [hPhase] at h hSection
    rw [hQuiet stack interrupted stray rfl] at hExec
    cases hSection with
    | opened hDevice hSent =>
        have hSize := storedSize_packetLog hPackets hDevice
        have hLess := @contents_length_lt packet completed
        have hStart := @exec_seek thread _ _ _ _ stray reply hDevice.ring hSerial.unlocked (by omega) hSeeks.1 h hExec
        rw [(packetLog_commands hPackets).1] at hStart
        rw [moveTo_phase_self]
        show SeekInside packet completed seekCmd (system.file thread).fPos (server.sent thread) (.reading [])
        rw [hSent, hStart]
        exact seek_begin
  · next hPhase => simp [hSeek] at hStep
  · next size copied junk left hPhase =>
    rw [hPhase] at hSection
    cases hSection with
    | writing _ _ hData => simp [hSeek] at hData
  · next hPhase =>
    rw [hPhase] at hSection
    cases hSection with
    | writing _ _ hData => simp [hSeek] at hData
  · next count hPhase =>
    split at hStep
    · cases hStep
    · next hCount =>
      obtain ⟨system, hExec, rfl⟩ := perform_ok hStep
      rw [hPhase] at h hSection
      rw [moveTo_phase_self]
      exact seek_read hPackets hSeek hSection h (Nat.pos_of_ne_zero hCount) hExec
  · next byte rest hPhase =>
    cases hStep
    rw [hPhase] at h
    rw [moveTo_phase_self]
    have hSame : Function.update server.sent thread (server.sent thread ++ [byte]) thread ++ rest =
        server.sent thread ++ byte :: rest := by
      rw [Function.update_self, ← List.append_cons]
    show SeekInside packet completed seekCmd (server.system.file thread).fPos
      (Function.update server.sent thread (server.sent thread ++ [byte]) thread) (.reading rest)
    rw [SeekInside, hSame]
    exact h
  · next hPhase =>
    obtain ⟨system, hExec, rfl⟩ := perform_ok hStep
    rw [hPhase] at h
    rw [moveTo_phase_self]
    exact h
  · next hPhase => exact absurd rfl hCall
  · cases hStep

theorem dataPackets_seek (hSeek : (packet thread).isSeek = true) :
    dataPackets packet (completed ++ [thread]) = dataPackets packet completed := by
  rw [dataPackets_append]
  simp [dataPackets, hSeek]

theorem seekContents_seek (hSeek : (packet thread).isSeek = true) :
    seekContents packet (completed ++ [thread]) seekCmd = seekContents packet completed seekCmd := by
  rw [seekContents, seekContents, contents, contents, dataPackets_seek hSeek]

namespace SeeksHold

/-- A step inside the critical section. -/
theorem goOn (h : SeeksHold packet completed server) (hSerial : Serial packet completed server)
    (hMutex : server.mutexLock = some thread) (hNext : next.mutexLock = some thread)
    (hSent : ∀ other, other ≠ thread → next.sent other = server.sent other)
    (hInside : ∀ seekCmd, (packet thread).Seeks seekCmd →
      SeekInside packet completed seekCmd (next.system.file thread).fPos (next.sent thread) (next.phase thread)) :
    SeeksHold packet completed next := by
  have hOnce := hSerial.once
  rw [hMutex] at hOnce
  refine ⟨fun other hOther seekCmd hSeeks => ?_, fun other hOther seekCmd hSeeks => ?_⟩
  · have hNe : other ≠ thread := by
      rintro rfl
      exact List.disjoint_of_nodup_append hOnce hOther (by simp)
    rw [hSent other hNe]
    exact h.served other hOther seekCmd hSeeks
  · cases hNext.symm.trans hOther
    exact hInside seekCmd hSeeks

/-- The turn of the thread is over. -/
theorem unlock (h : SeeksHold packet completed server) (hSerial : Serial packet completed server)
    (hMutex : server.mutexLock = some thread) (hPhase : server.phase thread = .closed)
    (hNext : next.mutexLock = none) (hSent : next.sent = server.sent) :
    SeeksHold packet (completed ++ [thread]) next := by
  have hOnce := hSerial.once
  rw [hMutex] at hOnce
  have hNew : thread ∉ completed := fun hBefore => List.disjoint_of_nodup_append hOnce hBefore (by simp)
  refine ⟨fun other hOther seekCmd hSeeks => ?_, fun other hOther => ?_⟩
  · rw [hSent]
    rcases List.mem_append.mp hOther with hBefore | hLast
    · rw [through_append_of_mem hBefore]
      exact h.served other hBefore seekCmd hSeeks
    · obtain rfl := List.mem_singleton.mp hLast
      have hInside := h.inside other hMutex seekCmd hSeeks
      rw [hPhase] at hInside
      rw [through_append_of_not_mem hNew, show through other [other] = [other] by simp [through],
        seekContents_seek hSeeks.isSeek]
      exact hInside
  · rw [hNext] at hOther
    cases hOther

end SeeksHold

/-- One step of any thread, in a run without interrupted seeks. -/
theorem seeks_step (hPackets : ∀ thread, (packet thread).WellFormed) (hSerial : Serial packet completed server)
    (h : SeeksHold packet completed server) (hQuiet : action.Uninterrupted)
    (hStep : threadHandler packet action server = .ok (reply, next)) :
    ∃ later, Serial packet later next ∧ SeeksHold packet later next ∧
      later ++ next.mutexLock.toList = completed ++ server.mutexLock.toList ++ action.lockedBy.toList := by
  obtain ⟨thread, call⟩ := action
  have hOutcome := threadHandler_outcome hPackets hSerial ⟨thread, call⟩
  rw [hStep] at hOutcome
  cases hOutcome with
  | moved _ _ later hNext hOrder =>
      refine ⟨later, hNext, ?_, hOrder⟩
      by_cases hLock : call = .lock
      · subst hLock
        obtain ⟨_, hFree, rfl⟩ := threadHandler_lock hStep
        have hSame : later = completed := by simpa [Action.lockedBy, Server.moveTo, hFree] using hOrder
        rw [hSame]
        refine ⟨h.served, fun other hOther seekCmd _ => ?_⟩
        cases hOther
        rw [moveTo_phase_self]
        trivial
      · have hNobody : (⟨thread, call⟩ : Action).lockedBy = none := by
          cases call with
          | lock => exact absurd rfl hLock
          | _ => rfl
        rw [hNobody] at hOrder
        by_cases hUnlock : call = .unlock
        · subst hUnlock
          obtain ⟨hPhase, rfl⟩ := threadHandler_unlock hStep
          have hMutex := hSerial.mutexLock_eq (by simp [hPhase]) (by simp [hPhase] : server.phase thread ≠ _)
          have hSame : later = completed ++ [thread] := by simpa [Server.moveTo, hMutex] using hOrder
          rw [hSame]
          exact h.unlock hSerial hMutex hPhase rfl rfl
        · obtain ⟨hStarted, hGoing, hSameMutex, hSent⟩ := threadHandler_inside hLock hUnlock hStep
          have hMutex := hSerial.mutexLock_eq hStarted hGoing
          have hSame : later = completed := by simpa [hSameMutex, hMutex] using hOrder
          rw [hSame]
          refine h.goOn hSerial hMutex (hSameMutex.trans hMutex) hSent fun seekCmd hSeeks => ?_
          exact seek_inside hPackets hSerial hMutex hSeeks hQuiet (h.inside thread hMutex seekCmd hSeeks) hStep hUnlock

theorem run_seeks (hPackets : ∀ thread, (packet thread).WellFormed) (hQuiet : ∀ action ∈ actions, action.Uninterrupted)
    (hRun : run (threadHandler packet) actions .initial = .ok (trace, server)) :
    ∃ completed, Serial packet completed server ∧ SeeksHold packet completed server ∧
      lockOrder trace = completed ++ server.mutexLock.toList := by
  refine run_induct (fun history server => ∃ completed, Serial packet completed server ∧
    SeeksHold packet completed server ∧ lockOrder history = completed ++ server.mutexLock.toList) ?_ []
    ⟨[], Serial.initial, ⟨by simp, by simp [Server.initial]⟩, rfl⟩ (along_and_mem along_true hQuiet) hRun
  rintro history server action reply next ⟨completed, hSerial, hSeeks, hOrder⟩ hStep ⟨_, hAction⟩
  obtain ⟨later, hNext, hLater, hMore⟩ := seeks_step hPackets hSerial hSeeks hAction hStep
  refine ⟨later, hNext, hLater, ?_⟩
  rw [lockOrder_concat, hOrder, hMore]

/-- The third of the three clients names the second byte of the first command. -/
theorem threePackets_seeks : (threePackets 2).Seeks ⟨0, 1⟩ := by
  refine ⟨by decide, 0, 1, ⟨[48, 44, 49, newline], [49, newline], [newline], rfl, ?_, ?_⟩, by decide⟩
  · exact .intro [] [] [48] [44, 49, newline] (by simp) (.inl rfl) (by simp; decide) (by simp) (by simp; decide)
  · exact .intro [] [] [49] [newline] (by simp) (.inl rfl) (by simp; decide) (by simp) (by simp; decide)

theorem threePackets_wellFormed (thread : Nat) : (threePackets thread).WellFormed := by
  unfold threePackets
  split
  · exact .inl (by decide)
  · split
    · exact .inr ⟨[98], by decide, rfl⟩
    · exact .inr ⟨[97], by decide, rfl⟩

/-- For any number of clients, each with a line or a seek command, and any
interleaving of their threads: a client whose packet names a seek gets what
the device has after the turns before its own, from the byte on that the seek
takes it to, and all of it if the seek is refused. -/
theorem seeks_answered (packet : Nat → Packet) (hPackets : ∀ thread, (packet thread).WellFormed)
    (actions : List Action) (hQuiet : ∀ action ∈ actions, action.Uninterrupted)
    (trace : List (Action × Reply)) (server : Server)
    (hRun : run (threadHandler packet) actions .initial = .ok (trace, server)) :
    ∀ thread, server.phase thread = .finished → ∀ seekCmd, (packet thread).Seeks seekCmd →
      server.sent thread = seekContents packet (through thread (lockOrder trace)) seekCmd := by
  intro thread hFinished seekCmd hSeek
  obtain ⟨completed, hSerial, hSeeks, hOrder⟩ := run_seeks hPackets hQuiet hRun
  have hBefore : thread ∈ completed := by
    by_contra hNot
    by_cases hInside : server.mutexLock = some thread
    · exact (hSerial.inside thread hInside).phase_ne.2 hFinished
    · have hReady := (hSerial.ready thread (by simp [hNot, Option.mem_toList, hInside])).1
      rw [hFinished] at hReady
      cases hReady
  rw [hOrder, through_append_of_mem hBefore]
  exact hSeeks.served thread hBefore seekCmd hSeek

theorem seeks_answered_three : ∃ trace server,
    run (threadHandler threePackets) threeTurns Server.initial = .ok (trace, server) ∧
      server.sent 2 = seekContents threePackets [1, 2] ⟨0, 1⟩ ∧ server.sent 2 = [newline] := by
  obtain ⟨trace, server, hRun, hOrder, hPhase, hSent⟩ : ∃ trace server,
      run (threadHandler threePackets) threeTurns Server.initial = .ok (trace, server) ∧
        lockOrder trace = [1, 2, 0] ∧ server.phase 2 = .finished ∧ server.sent 2 = [newline] :=
    ⟨_, _, rfl, rfl, rfl, rfl⟩
  have hQuiet : ∀ action ∈ threeTurns, action.Uninterrupted := by
    simp [threeTurns, turn, Action.Uninterrupted]
  have hAnswer := seeks_answered threePackets threePackets_wellFormed threeTurns hQuiet trace server hRun 2 hPhase
    ⟨0, 1⟩ threePackets_seeks
  rw [hOrder] at hAnswer
  exact ⟨trace, server, hRun, hAnswer, hSent⟩

/-- A client in its turn was sent a part of its answer. -/
theorem inside_so_far {sent : List Byte} {phase : Phase}
    (h : InSection packet completed thread system sent phase) (hData : (packet thread).isSeek = false) :
    sent <+: contents packet (completed ++ [thread]) := by
  cases h with
  | locked _ hSent => exact hSent ▸ List.nil_prefix
  | opened _ hSent => exact hSent ▸ List.nil_prefix
  | writing _ _ _ _ _ hSent => exact hSent ▸ List.nil_prefix
  | reading buffered _ hGiven =>
      refine (List.prefix_append sent buffered).trans ?_
      rw [(hGiven hData).2]
      exact List.take_prefix _ _
  | drained _ hSent => exact hSent hData ▸ List.prefix_refl _
  | closed _ hSent => exact hSent hData ▸ List.prefix_refl _

theorem seek_inside_so_far {sent : List Byte} {phase : Phase}
    (h : InSection packet completed thread system sent phase) (hSeek : (packet thread).isSeek = true)
    (hInside : SeekInside packet completed seekCmd (system.file thread).fPos sent phase) :
    sent <+: seekContents packet completed seekCmd := by
  cases h with
  | locked _ hSent => exact hSent ▸ List.nil_prefix
  | opened _ hSent => exact hSent ▸ List.nil_prefix
  | writing _ _ hData => simp [hSeek] at hData
  | reading buffered =>
      refine (List.prefix_append sent buffered).trans ?_
      rw [hInside.2.2]
      exact List.take_prefix _ _
  | drained => exact hInside ▸ List.prefix_refl _
  | closed => exact hInside ▸ List.prefix_refl _

/-- At every moment of every run, with a line or a seek command from each
client, what one with a line or a seek that names its numbers was sent is the
beginning of its answer, and of no more than that. -/
theorem answers_so_far (packet : Nat → Packet) (hPackets : ∀ thread, (packet thread).WellFormed)
    (actions : List Action) (hQuiet : ∀ action ∈ actions, action.Uninterrupted)
    (trace : List (Action × Reply)) (server : Server)
    (hRun : run (threadHandler packet) actions .initial = .ok (trace, server)) (thread : Nat) :
    ((packet thread).isSeek = false → server.sent thread <+: contents packet (through thread (lockOrder trace))) ∧
    ∀ seekCmd, (packet thread).Seeks seekCmd →
      server.sent thread <+: seekContents packet (through thread (lockOrder trace)) seekCmd := by
  obtain ⟨completed, hSerial, hSeeks, hOrder⟩ := run_seeks hPackets hQuiet hRun
  rw [hOrder]
  by_cases hBefore : thread ∈ completed
  · rw [through_append_of_mem hBefore]
    exact ⟨fun hData => (hSerial.served thread hBefore).answered hData ▸ List.prefix_refl _,
      fun seekCmd hSeek => hSeeks.served thread hBefore seekCmd hSeek ▸ List.prefix_refl _⟩
  · by_cases hMutex : server.mutexLock = some thread
    · have hThrough : through thread (completed ++ server.mutexLock.toList) = completed ++ [thread] := by
        rw [hMutex, Option.toList_some, through_append_of_not_mem hBefore]
        simp [through]
      rw [hThrough]
      refine ⟨inside_so_far (hSerial.inside thread hMutex), fun seekCmd hSeek => ?_⟩
      rw [seekContents_seek hSeek.isSeek]
      exact seek_inside_so_far (hSerial.inside thread hMutex) hSeek.isSeek (hSeeks.inside thread hMutex seekCmd hSeek)
    · rw [(hSerial.ready thread (by simp [hBefore, Option.mem_toList, hMutex])).2]
      exact ⟨fun _ => List.nil_prefix, fun _ _ => List.nil_prefix⟩

/-- In the middle of its turn the last of the three clients has one byte. -/
theorem answers_so_far_three : ∃ trace server,
    run (threadHandler threePackets) (threeTurns.take 28) Server.initial = .ok (trace, server) ∧
      server.sent 0 = [98] ∧ [98] <+: contents threePackets [1, 2, 0] := by
  obtain ⟨trace, server, hRun, hOrder, hSent⟩ : ∃ trace server,
      run (threadHandler threePackets) (threeTurns.take 28) Server.initial = .ok (trace, server) ∧
        lockOrder trace = [1, 2, 0] ∧ server.sent 0 = [98] := ⟨_, _, rfl, rfl, rfl⟩
  have hQuiet : ∀ action ∈ threeTurns.take 28, action.Uninterrupted := by
    simp [threeTurns, turn, Action.Uninterrupted]
  have hPrefix := (answers_so_far threePackets threePackets_wellFormed _ hQuiet trace server hRun 0).1 (by decide)
  rw [hOrder, hSent] at hPrefix
  exact ⟨trace, server, hRun, hSent, hPrefix⟩

end Aesd
