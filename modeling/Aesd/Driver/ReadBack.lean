import Aesd.Driver.WriteLog

/-! Reading the stored commands. A read gives a part of one command, so what
a file has been given so far is the contents up to its position. -/
namespace Aesd
open Kernel Word Memory Execution CommandLog

/-- The stored commands of a log: the last ones, as many as there are slots. -/
def lastCommands (log : WriteLog) : List (List Byte) :=
  log.commands.rtake aesdcharMaxWriteOperationsSupported

variable {system next : System} {world : World} {log : WriteLog} {call : ReadCall} {filp : File}
  {commands : List (List Byte)} {index offset fd : Nat} {reply : Reply} {piece : List Byte}
  {ops : List Op} {trace : List (Op × Reply)} {counts : Nat → Nat}

/-- The entries in ring order, with the bytes they point to. -/
theorem RingHolds.entry_bytes (h : RingHolds world commands)
    (hIndex : index < (commands.rtake aesdcharMaxWriteOperationsSupported).length) :
    (world.dev.aesdCb.slot ((world.dev.aesdCb.outOffs + index) %
        aesdcharMaxWriteOperationsSupported)).bytes world.heap =
      .ok (commands.rtake aesdcharMaxWriteOperationsSupported)[index] := by
  have hStored := h.stored
  have hCount : index < world.stored.length := by
    rw [hStored, List.length_map]
    exact hIndex
  have hEntry : world.stored[index] = .ok (commands.rtake aesdcharMaxWriteOperationsSupported)[index] := by
    simp [hStored]
  rw [← hEntry]
  simp [World.stored, AesdCircularBuffer.entries, Ring.window_getElem]

/-- An entry with a size has bytes. -/
theorem RingHolds.bytes_of_size (h : RingHolds world commands) (hSize : 0 < (world.dev.aesdCb.slot index).size) :
    ∃ bytes, (world.dev.aesdCb.slot index).bytes world.heap = .ok bytes := by
  by_cases hVacant : aesdcharMaxWriteOperationsSupported ≤ index ∨ commands.length ≤ index
  · rw [h.vacant hVacant] at hSize
    cases hSize
  · obtain ⟨hIndex, hWritten⟩ := not_or.mp hVacant
    obtain ⟨command, _, id, hSlot, hLoad⟩ :=
      h.occupied (Nat.lt_of_not_le hIndex) (Nat.lt_of_not_le hWritten)
    rw [hSlot] at hSize ⊢
    exact ⟨command, load_block hSize hLoad⟩

/-- A copy from an offset inside an entry, of as much as is left at most. -/
theorem AesdBufferEntry.copy_part {entry : AesdBufferEntry} {bytes : List Byte} {heap : Heap Byte} {count : Nat}
    {fails : Bool} (hBytes : entry.bytes heap = .ok bytes) (hOffset : offset ≤ entry.size) :
    copyToUser entry.buffptr offset
        (if unsigned64 (entry.size - offset) > count then count else unsigned64 (entry.size - offset)) fails heap =
      .ok (if fails = true ∧ 0 < (if unsigned64 (entry.size - offset) > count then count
          else unsigned64 (entry.size - offset)) then none
        else some ((bytes.drop offset).take (if unsigned64 (entry.size - offset) > count then count
          else unsigned64 (entry.size - offset)))) := by
  obtain ⟨length, hLength⟩ : ∃ length, length = if unsigned64 (entry.size - offset) > count then count
    else unsigned64 (entry.size - offset) := ⟨_, rfl⟩
  have hAvailable : unsigned64 (entry.size - offset) ≤ entry.size - offset := by
    rw [← Int.natCast_sub hOffset, unsigned64_natCast]
    exact Nat.mod_le _ _
  have hFits : offset + length ≤ entry.size := by
    rw [hLength]
    split <;> omega
  rw [← hLength, copyToUser, Kernel.load_part hBytes hFits]
  rfl

/-- Everything a read can do, for a position taken as the unsigned value
that the lookup is called with. -/
inductive ReadOutcome (call : ReadCall) (commands : List (List Byte)) (filp : File) :
    Except Stop (Int × List Byte × File) → Prop where
  | noBuffer (hBuf : call.hasBuf = false) : ReadOutcome call commands filp (.ok (-EFAULT, [], filp))
  | atEnd (hBuf : call.hasBuf = true) (hEnd : commands.flatten.length ≤ unsigned64 filp.fPos) :
      ReadOutcome call commands filp (.ok (0, [], filp))
  | failed (hBuf : call.hasBuf = true) (hInside : unsigned64 filp.fPos < commands.flatten.length)
      (hFails : call.copyFails = true) (hCount : 0 < call.count) :
      ReadOutcome call commands filp (.ok (-EFAULT, [], filp))
  | copied (index offset : Nat) (hBuf : call.hasBuf = true) (hIndex : index < commands.length)
      (hLocate : Segments.locate (commands.map List.length) (unsigned64 filp.fPos) = some (index, offset))
      (hServed : call.copyFails = false ∨ call.count = 0) :
      ReadOutcome call commands filp (.ok (((commands[index].drop offset).take call.count).length,
        (commands[index].drop offset).take call.count,
        ⟨signed64 (filp.fPos + ((commands[index].drop offset).take call.count).length)⟩))

/-- The bytes that are copied lie inside the entry that was found. -/
theorem copyToUser_entry {entry : AesdBufferEntry} {bytes : List Byte} {count : Nat} {fails : Bool}
    (hBytes : entry.bytes world.heap = .ok bytes) (hOffset : offset ≤ bytes.length)
    (hSize : bytes.length < 2 ^ 64) :
    copyToUser entry.buffptr offset
        (if unsigned64 (entry.size - offset) > count then count else unsigned64 (entry.size - offset))
        fails world.heap =
      .ok (if fails = true ∧ 0 < ((bytes.drop offset).take count).length then none
        else some ((bytes.drop offset).take count)) ∧
    (if unsigned64 (entry.size - offset) > count then count else unsigned64 (entry.size - offset)) =
      ((bytes.drop offset).take count).length := by
  have hEntrySize : bytes.length = entry.size := Kernel.length_of_load hBytes
  have hAvailable : unsigned64 (entry.size - offset) = bytes.length - offset := by
    rw [show (entry.size : Int) - offset = (bytes.length - offset : Nat) by omega]
    exact unsigned64_of_lt (by omega)
  have hLength : (if unsigned64 (entry.size - offset) > count then count
      else unsigned64 (entry.size - offset)) = ((bytes.drop offset).take count).length := by
    rw [hAvailable, List.length_take, List.length_drop]
    split <;> omega
  have hTake : (bytes.drop offset).take ((bytes.drop offset).take count).length =
      (bytes.drop offset).take count := by
    rw [List.take_eq_take_iff, List.length_take]
    omega
  refine ⟨?_, hLength⟩
  rw [AesdBufferEntry.copy_part hBytes (hEntrySize ▸ hOffset), hLength, hTake]

theorem aesdRead_of_found {bytes : List Byte} (hBuf : call.hasBuf = true)
    (hFind : aesdCircularBufferFindEntryOffsetForFpos world.dev.aesdCb (unsigned64 filp.fPos) =
      .ok (some (index, offset)))
    (hBytes : (world.dev.aesdCb.slot index).bytes world.heap = .ok bytes)
    (hOffset : offset ≤ bytes.length) (hSize : bytes.length < 2 ^ 64) :
    aesdRead call world filp =
      if call.copyFails = true ∧ 0 < ((bytes.drop offset).take call.count).length then
        .ok (-EFAULT, [], filp)
      else .ok (((bytes.drop offset).take call.count).length, (bytes.drop offset).take call.count,
        ⟨signed64 (filp.fPos + ((bytes.drop offset).take call.count).length)⟩) := by
  obtain ⟨hCopy, hLength⟩ := @copyToUser_entry world offset _ _ call.count call.copyFails
    hBytes hOffset hSize
  simp only [aesdRead, hBuf, hFind, hCopy, bind, Except.bind, pure, Except.pure, Bool.true_eq_false,
    ↓reduceIte]
  split
  · next hNone =>
    split at hNone
    · next hFails => rw [if_pos hFails]
    · cases hNone
  · next copied hSome =>
    split at hSome
    · cases hSome
    · next hServed =>
      cases hSome
      rw [if_neg hServed, hLength]

theorem aesdRead_outcome (h : RingHolds world commands)
    (hSize : (commands.rtake aesdcharMaxWriteOperationsSupported).flatten.length < 2 ^ 64)
    (call : ReadCall) (filp : File) :
    ReadOutcome call (commands.rtake aesdcharMaxWriteOperationsSupported) filp
      (aesdRead call world filp) := by
  cases hBuf : call.hasBuf with
  | false =>
      rw [show aesdRead call world filp = .ok (-EFAULT, [], filp) by simp [aesdRead, hBuf]]
      exact .noBuffer hBuf
  | true =>
      have hFind := find_eq h.counted (unsigned64_lt filp.fPos)
        (by rw [h.sizes, Segments.sum_map_length]; exact hSize)
      rw [h.sizes] at hFind
      cases hLocate : Segments.locate ((commands.rtake aesdcharMaxWriteOperationsSupported).map List.length)
          (unsigned64 filp.fPos) with
      | none =>
          rw [hLocate] at hFind
          rw [show aesdRead call world filp = .ok (0, [], filp) by
            simp [aesdRead, hBuf, hFind, bind, Except.bind, pure, Except.pure]]
          rw [Segments.locate_eq_none_iff, Segments.sum_map_length] at hLocate
          exact .atEnd hBuf hLocate
      | some found =>
          obtain ⟨index, offset⟩ := found
          rw [hLocate] at hFind
          obtain ⟨hIndex, hOffset, hSum⟩ := Segments.locate_eq_some_iff.mp hLocate
          rw [List.length_map] at hIndex
          rw [List.getElem_map] at hOffset
          have hShort := (List.sublist_flatten_of_mem (List.getElem_mem hIndex)).length_le
          rw [aesdRead_of_found hBuf hFind (h.entry_bytes hIndex) (Nat.le_of_lt hOffset) (by omega)]
          split
          · next hFails =>
            have hInside := Segments.lt_sum_of_locate hLocate
            rw [Segments.sum_map_length] at hInside
            refine .failed hBuf hInside hFails.1 (Nat.pos_of_ne_zero fun hZero => ?_)
            simp [hZero] at hFails
          · next hServed =>
            refine .copied index offset hBuf hIndex hLocate ?_
            rw [not_and_or, Bool.not_eq_true, List.length_take, List.length_drop] at hServed
            exact hServed.imp_right (by omega)

/-- Every read returns, from whatever position. -/
theorem exec_read_ok (h : Represents system.world log) (hSize : system.world.storedSize < 2 ^ 64)
    (fd : Nat) (call : ReadCall) :
    ∃ reply next, System.exec (.read fd call) system = .ok (reply, next) := by
  have hOutcome := aesdRead_outcome h.ring (h.ring.storedSize ▸ hSize) call (system.file fd)
  simp only [System.exec]
  generalize aesdRead call system.world (system.file fd) = outcome at hOutcome
  cases hOutcome <;> exact ⟨_, _, rfl⟩

/-- What was copied is a slice of all stored bytes. -/
theorem take_of_locate {position count : Nat} (hIndex : index < commands.length)
    (hLocate : Segments.locate (commands.map List.length) position = some (index, offset)) :
    (commands[index].drop offset).take count =
        (commands.flatten.drop position).take ((commands[index].drop offset).take count).length ∧
      position + ((commands[index].drop offset).take count).length ≤ commands.flatten.length ∧
      (0 < count → 0 < ((commands[index].drop offset).take count).length) := by
  obtain ⟨_, hOffset, hDrop⟩ := Segments.drop_flatten_of_locate hLocate
  have hInside := Segments.lt_sum_of_locate hLocate
  rw [Segments.sum_map_length] at hInside
  have hLength := congrArg List.length hDrop
  rw [List.length_drop, List.length_append] at hLength
  refine ⟨?_, ?_, ?_⟩
  · rw [hDrop, List.take_append_of_le_length (by rw [List.length_take]; omega), List.take_eq_take_iff,
      List.length_take]
    omega
  · rw [List.length_take]
    omega
  · intro hCount
    rw [List.length_take, List.length_drop]
    omega

/-- A read gives at least one byte and moves the file on by what it gave, as
long as there is something behind its position; otherwise it gives nothing
and the file stays where it is. -/
structure ExactRead (call : ReadCall) (system : System) (fd : Nat) (reply : Reply) (next : System) :
    Prop where
  succeeds : call.hasBuf = true → call.copyFails = false → 0 ≤ reply.retval
  failed : reply.retval < 0 → next.file fd = system.file fd
  copyFailed : call.copyFails = true → next.file fd = system.file fd
  ended : 0 ≤ reply.retval →
    (reply.retval = 0 ↔ (system.world.storedSize : Int) ≤ (system.file fd).fPos)
  stayed : reply.retval = 0 → next.file fd = system.file fd
  advanced : 0 < reply.retval → reply.retval ≤ call.count ∧
    (next.file fd).fPos = (system.file fd).fPos + reply.retval
  data : reply.data.length = reply.retval.toNat

/-- The position of the file is one that a seek or a read can leave. -/
def System.InRange (system : System) (fd : Nat) : Prop :=
  0 ≤ (system.file fd).fPos ∧ (system.file fd).fPos < 2 ^ 63

theorem exec_read_exact (h : Represents system.world log) (hRange : system.InRange fd)
    (hSize : system.world.storedSize < 2 ^ 63) (hCount : 0 < call.count) :
    ∃ reply next, System.exec (.read fd call) system = .ok (reply, next) ∧
      ExactRead call system fd reply next ∧ next.InRange fd ∧
      reply.data = ((lastCommands log).flatten.drop (system.file fd).fPos.toNat).take reply.data.length ∧
      (next.file fd).fPos = (system.file fd).fPos + reply.data.length := by
  obtain ⟨position, hPosition⟩ : ∃ position : Nat, (system.file fd).fPos = position :=
    ⟨_, (Int.toNat_of_nonneg hRange.1).symm⟩
  have hLess := hRange.2
  have hTotal := h.ring.storedSize
  have hUnsigned : unsigned64 (system.file fd).fPos = position := by
    rw [hPosition]
    exact unsigned64_of_lt (by omega)
  have hOutcome := aesdRead_outcome h.ring (by omega) call (system.file fd)
  have hExec : System.exec (.read fd call) system =
      (aesdRead call system.world (system.file fd)).bind fun result =>
        .ok (⟨result.1, result.2.1⟩, system.setFile fd result.2.2) := rfl
  have hKept : ∀ {data : List Byte} {filp : File}, data = [] → filp = system.file fd →
      (system.setFile fd filp).InRange fd ∧
      data = ((lastCommands log).flatten.drop (system.file fd).fPos.toNat).take data.length ∧
      ((system.setFile fd filp).file fd).fPos = (system.file fd).fPos + data.length := by
    rintro _ _ rfl rfl
    simpa [System.InRange] using hRange
  rw [hExec]
  generalize aesdRead call system.world (system.file fd) = outcome at hOutcome
  cases hOutcome with
  | noBuffer hBuf =>
      refine ⟨_, _, rfl, ⟨?_, ?_, ?_, ?_, ?_, ?_, ?_⟩, hKept rfl rfl⟩
      all_goals simp [hBuf, EFAULT]
  | atEnd hBuf hEnd =>
      have hBehind : (system.world.storedSize : Int) ≤ (system.file fd).fPos := by omega
      refine ⟨_, _, rfl, ⟨?_, ?_, ?_, ?_, ?_, ?_, ?_⟩, hKept rfl rfl⟩
      all_goals simp [hBehind]
  | failed hBuf hInside hFails =>
      refine ⟨_, _, rfl, ⟨?_, ?_, ?_, ?_, ?_, ?_, ?_⟩, hKept rfl rfl⟩
      all_goals simp [hFails, EFAULT]
  | copied index offset hBuf hIndex hLocate hServed =>
      have hServedCopy : call.copyFails = false := hServed.resolve_right (Nat.ne_of_gt hCount)
      have hInside := Segments.lt_sum_of_locate hLocate
      rw [Segments.sum_map_length, hUnsigned, ← hTotal] at hInside
      obtain ⟨hSlice, hFits, hSome⟩ := @take_of_locate _ _ _ _ call.count hIndex hLocate
      obtain ⟨bytes, hBytes⟩ : ∃ bytes, bytes =
        (((log.commands.rtake aesdcharMaxWriteOperationsSupported)[index].drop offset).take call.count) :=
          ⟨_, rfl⟩
      rw [hUnsigned, ← hBytes, ← hTotal] at hFits
      rw [hUnsigned, ← hBytes] at hSlice
      rw [← hBytes] at hSome ⊢
      have hGiven := hSome hCount
      have hMoved : signed64 ((system.file fd).fPos + bytes.length) = (system.file fd).fPos + bytes.length :=
        signed64_of_range (by omega) (by omega)
      have hBefore : ¬ (system.world.storedSize : Int) ≤ (system.file fd).fPos := by omega
      refine ⟨⟨bytes.length, bytes⟩, system.setFile fd ⟨signed64 ((system.file fd).fPos + bytes.length)⟩,
        rfl, ⟨?_, ?_, ?_, ?_, ?_, ?_, ?_⟩, ?_, ?_, ?_⟩
      · intro _ _
        exact Int.natCast_nonneg _
      · intro hNegative
        exact absurd hNegative (by simp)
      · intro hFails
        rw [hFails] at hServedCopy
        cases hServedCopy
      · intro _
        refine iff_of_false ?_ hBefore
        simp only [Int.natCast_eq_zero]
        omega
      · intro hZero
        simp only [Int.natCast_eq_zero] at hZero
        omega
      · intro _
        refine ⟨?_, by rw [setFile_file_self, hMoved]⟩
        rw [hBytes, Int.ofNat_le]
        exact List.length_take_le _ _
      · exact (Int.toNat_natCast _).symm
      · rw [System.InRange, setFile_file_self, hMoved]
        constructor <;> dsimp only <;> omega
      · rw [hPosition, Int.toNat_natCast]
        exact hSlice
      · rw [setFile_file_self, hMoved]

/-- The write displaced nothing: the start of the ring has not moved. -/
def KeepsOldest (system : System) (_op : Op) (next : System) : Prop :=
  next.world.dev.aesdCb.outOffs = system.world.dev.aesdCb.outOffs

/-- Without a displacement the stored commands only get more at the end. -/
theorem lastCommands_prefix {next : World} (h : Represents world log)
    (hNext : Represents next (log.accept piece))
    (hKeep : next.dev.aesdCb.outOffs = world.dev.aesdCb.outOffs) :
    lastCommands log <+: lastCommands (log.accept piece) := by
  by_cases hNewline : newline ∈ log.pending ++ piece
  · obtain ⟨hCommands, _⟩ := Log.accept_of_mem hNewline
    have hOut := hNext.ring.counted.outOffs
    rw [hKeep, h.ring.counted.outOffs, hCommands, List.length_append, List.length_singleton] at hOut
    simp only [aesdcharMaxWriteOperationsSupported] at hOut
    rw [lastCommands, lastCommands, hCommands, Ring.rtake_concat (by decide),
      if_pos (show log.commands.length < 10 by omega)]
    exact List.prefix_append _ _
  · rw [lastCommands, lastCommands, (Log.accept_of_not_mem hNewline).1]

def delivered (trace : List (Op × Reply)) : List Byte := (trace.map fun event => event.2.data).flatten

/-- The reads of one file, and writes through any file. -/
def ReadsOrWrites (fd : Nat) (op : Op) : Prop :=
  (∃ call, op = .read fd call ∧ 0 < call.count) ∨ ∃ other call, op = .write other call

/-- What the file has been given is the contents from where it started up to
where it is now. -/
structure GivenFrom (start : Int) (fd : Nat) (trace : List (Op × Reply)) (system : System)
    (contents : List Byte) : Prop where
  range : system.InRange fd
  slice : delivered trace = (contents.drop start.toNat).take (delivered trace).length
  length : (system.file fd).fPos = start + (delivered trace).length

theorem slice_of_prefix {contents longer given : List Byte} {start : Nat}
    (h : given = (contents.drop start).take given.length) (hPrefix : contents <+: longer) :
    given = (longer.drop start).take given.length := by
  obtain ⟨more, rfl⟩ := hPrefix
  have hFits := congrArg List.length h
  rw [List.length_take] at hFits
  rw [List.drop_append, List.take_append_of_le_length (by omega)]
  exact h

theorem GivenFrom.step {start : Int} {trace : List (Op × Reply)} {op : Op} (hStart : 0 ≤ start)
    (hOp : ReadsOrWrites fd op) (h : Represents system.world log)
    (hGiven : GivenFrom start fd trace system (lastCommands log).flatten)
    (hExec : System.exec op system = .ok (reply, next)) (hKeep : KeepsOldest system op next)
    (hSize : system.world.storedSize < 2 ^ 63) :
    GivenFrom start fd (trace ++ [(op, reply)]) next
      (lastCommands (log.accept (acceptedBytes (op, reply)))).flatten := by
  have hDelivered : delivered (trace ++ [(op, reply)]) = delivered trace ++ reply.data := by
    simp [delivered]
  rcases hOp with ⟨call, rfl, hCount⟩ | ⟨other, call, rfl⟩
  · obtain ⟨answer, after, hRead, _, hRange, hData, hMoved⟩ :=
      exec_read_exact h hGiven.range hSize hCount
    obtain ⟨rfl, rfl⟩ : answer = reply ∧ after = next := by
      rw [hExec] at hRead
      simpa [eq_comm] using hRead
    refine ⟨hRange, ?_, ?_⟩
    · have hPosition : (system.file fd).fPos.toNat = start.toNat + (delivered trace).length := by
        rw [hGiven.length]
        omega
      rw [acceptedBytes_of_not_write (by simp), Log.accept_nil, hDelivered, List.length_append, List.take_add,
        ← hGiven.slice, List.drop_drop, ← hPosition, ← hData]
    · rw [hMoved, hGiven.length, hDelivered, List.length_append]
      omega
  · have hNothing := exec_write_data hExec
    obtain ⟨world, _, rfl⟩ := exec_write hExec
    obtain ⟨more, hMore⟩ := lastCommands_prefix h (exec_represents h hExec) hKeep
    rw [hNothing, List.append_nil] at hDelivered
    refine ⟨hGiven.range, ?_, ?_⟩
    · rw [hDelivered, ← hMore, List.flatten_append]
      exact slice_of_prefix hGiven.slice (List.prefix_append _ _)
    · rw [hDelivered]
      exact hGiven.length

theorem storedSize_le {op : Op} (h : Represents system.world log)
    (hExec : System.exec op system = .ok (reply, next)) (hKeep : KeepsOldest system op next) :
    system.world.storedSize ≤ next.world.storedSize := by
  have hNext := exec_represents h hExec
  obtain ⟨more, hMore⟩ := lastCommands_prefix h hNext hKeep
  rw [h.ring.storedSize, hNext.ring.storedSize]
  change (lastCommands log).flatten.length ≤ (lastCommands _).flatten.length
  rw [← hMore, List.flatten_append, List.length_append]
  exact Nat.le_add_right _ _

/-- Over a whole run of reads and writes that displace nothing. The sizes
only grow, so it is enough that the last one is in range. -/
theorem run_givenFrom {final : System} (h : Represents system.world log) (hRange : system.InRange fd)
    (hOps : ∀ op ∈ ops, ReadsOrWrites fd op) (hKeep : Along System.exec KeepsOldest ops system)
    (hRun : run System.exec ops system = .ok (trace, final)) (hSize : final.world.storedSize < 2 ^ 63) :
    ∃ log, Represents final.world log ∧
      GivenFrom (system.file fd).fPos fd trace final (lastCommands log).flatten := by
  obtain ⟨last, hLast, hGiven⟩ := run_induct
    (fun history state => ∃ log, Represents state.world log ∧ (state.world.storedSize < 2 ^ 63 →
      GivenFrom (system.file fd).fPos fd history state (lastCommands log).flatten))
    (fun history state op reply next ⟨log, hState, hGiven⟩ hExec hAllowed => by
      refine ⟨_, exec_represents hState hExec, fun hNext => ?_⟩
      have hBefore := Nat.lt_of_le_of_lt (storedSize_le hState hExec hAllowed.1) hNext
      exact (hGiven hBefore).step hRange.1 hAllowed.2 hState hExec hAllowed.1 hBefore)
    [] ⟨log, h, fun _ => ⟨hRange, rfl, by simp [delivered]⟩⟩ (along_and_mem hKeep hOps) hRun
  exact ⟨last, hLast, hGiven hSize⟩

/-- The first reads of a file, each of which can copy what it asks for. -/
def readsWith (fd : Nat) (counts : Nat → Nat) (reads : Nat) : List Op :=
  (List.range reads).map fun number => .read fd ⟨true, counts number, false⟩

theorem run_reads_world {final : System} {reads : Nat}
    (hRun : run System.exec (readsWith fd counts reads) system = .ok (trace, final)) :
    final.world = system.world ∧ Along System.exec KeepsOldest (readsWith fd counts reads) system := by
  have hReads : ∀ op ∈ readsWith fd counts reads, ∀ other call, op ≠ .write other call := by
    intro op hOp other call hWrite
    obtain ⟨number, _, rfl⟩ := List.mem_map.mp hOp
    cases hWrite
  have hAlong := along_and_mem (@along_true _ _ _ _ System.exec (readsWith fd counts reads) system) hReads
  refine ⟨run_induct (fun _ state => state.world = system.world) ?_ [] rfl hAlong hRun, ?_⟩
  · intro _ state op reply next hState hExec hAllowed
    exact (exec_world hExec hAllowed.2).trans hState
  · rw [along_iff_split] at hAlong ⊢
    intro before op after trace middle reply next hOps hBefore hExec
    have hWorld := exec_world hExec (hAlong before op after trace middle reply next hOps hBefore hExec).2
    rw [KeepsOldest, hWorld]

theorem lastCommands_unique {other : WriteLog} (h : Represents world log) (hOther : Represents world other) :
    lastCommands log = lastCommands other :=
  List.map_injective_iff.mpr (fun _ _ hSame => Except.ok.inj hSame)
    (h.ring.stored.symm.trans hOther.ring.stored)

theorem reads_given {final : System} {reads : Nat} (h : Represents system.world log)
    (hRange : system.InRange fd) (hSize : system.world.storedSize < 2 ^ 63)
    (hCounts : ∀ number, 0 < counts number)
    (hRun : run System.exec (readsWith fd counts reads) system = .ok (trace, final)) :
    final.world = system.world ∧
      GivenFrom (system.file fd).fPos fd trace final (lastCommands log).flatten := by
  obtain ⟨hWorld, hKeep⟩ := run_reads_world hRun
  have hOps : ∀ op ∈ readsWith fd counts reads, ReadsOrWrites fd op := by
    intro op hOp
    obtain ⟨number, _, rfl⟩ := List.mem_map.mp hOp
    exact Or.inl ⟨_, rfl, hCounts number⟩
  obtain ⟨last, hLast, hGiven⟩ := run_givenFrom h hRange hOps hKeep hRun (by rw [hWorld]; exact hSize)
  rw [lastCommands_unique h (hWorld ▸ hLast)]
  exact ⟨hWorld, hGiven⟩

/-- A file that was read to its end was given everything behind its start. -/
theorem GivenFrom.whole {contents : List Byte} {start : Nat}
    (h : GivenFrom start fd trace system contents)
    (hEnd : (contents.length : Int) ≤ (system.file fd).fPos) : delivered trace = contents.drop start := by
  have hLength := h.length
  rw [h.slice]
  exact List.take_of_length_le (by rw [List.length_drop]; omega)

/-- Each read that does not end the file gets it at least one byte further,
so one of them ends it. -/
theorem reads_end {start : Nat} (h : Represents system.world log) (hRange : system.InRange fd)
    (hStart : (system.file fd).fPos = start) (hSize : system.world.storedSize < 2 ^ 63)
    (hCounts : ∀ number, 0 < counts number) :
    ∃ reads trace final reply next,
      run System.exec (readsWith fd counts reads) system = .ok (trace, final) ∧
      (∀ event ∈ trace, 0 < event.2.retval) ∧
      System.exec (.read fd ⟨true, counts reads, false⟩) final = .ok (reply, next) ∧
      reply.retval = 0 ∧ delivered trace = (lastCommands log).flatten.drop start := by
  have hTotal : system.world.storedSize = (lastCommands log).flatten.length := h.ring.storedSize
  by_contra hNever
  have hForever : ∀ reads : Nat, ∃ trace final,
      run System.exec (readsWith fd counts reads) system = .ok (trace, final) ∧
      (∀ event ∈ trace, 0 < event.2.retval) ∧ (start : Int) + reads ≤ (final.file fd).fPos := by
    intro reads
    induction reads with
    | zero => exact ⟨[], system, rfl, by simp, by simp [hStart]⟩
    | succ reads ih =>
        obtain ⟨trace, final, hRun, hPositive, hPosition⟩ := ih
        obtain ⟨hWorld, hGiven⟩ := reads_given h hRange hSize hCounts hRun
        obtain ⟨reply, next, hExec, hExact, _, _, hMoved⟩ := @exec_read_exact final log
          ⟨true, counts reads, false⟩ fd (hWorld ▸ h) hGiven.range (hWorld ▸ hSize) (hCounts reads)
        have hSucceeds := hExact.succeeds rfl rfl
        have hMore : 0 < reply.retval := by
          refine Int.lt_iff_le_and_ne.mpr ⟨hSucceeds, fun hZero => hNever ?_⟩
          have hEnd := (hExact.ended hSucceeds).mp hZero.symm
          rw [hWorld, hTotal] at hEnd
          rw [hStart] at hGiven
          exact ⟨reads, trace, final, reply, next, hRun, hPositive, hExec, hZero.symm, hGiven.whole hEnd⟩
        refine ⟨trace ++ [(.read fd ⟨true, counts reads, false⟩, reply)], next, ?_, ?_, ?_⟩
        · rw [readsWith, List.range_succ, List.map_append]
          exact run_append_ok_iff.mpr ⟨trace, final, _, hRun, run_cons_of_ok hExec run_nil, rfl⟩
        · intro event hEvent
          rcases List.mem_append.mp hEvent with hOld | hNew
          · exact hPositive event hOld
          · rw [List.mem_singleton.mp hNew]
            exact hMore
        · rw [(hExact.advanced hMore).2]
          omega
  obtain ⟨trace, final, hRun, _, hPosition⟩ := hForever (system.world.storedSize + 1)
  obtain ⟨_, hGiven⟩ := reads_given h hRange hSize hCounts hRun
  have hLength := hGiven.length
  have hFits := congrArg List.length hGiven.slice
  rw [List.length_take, List.length_drop, ← hTotal] at hFits
  rw [hStart] at hLength
  omega

/-- Reading back is exact: at every single read; over every mixture of reads
of one file and writes that displace nothing; and up to the end. -/
theorem read_back (system : System) (fd : Nat) (hReach : Reachable system) (hRange : system.InRange fd) :
    (system.world.storedSize < 2 ^ 63 → ∀ call : ReadCall, 0 < call.count → ∃ reply next,
      System.exec (.read fd call) system = .ok (reply, next) ∧ ExactRead call system fd reply next) ∧
    (∀ ops trace final, (∀ op ∈ ops, ReadsOrWrites fd op) → Along System.exec KeepsOldest ops system →
      run System.exec ops system = .ok (trace, final) → final.world.storedSize < 2 ^ 63 →
      Reachable final ∧ ∃ commands : List (List Byte), final.world.stored = commands.map .ok ∧
        GivenFrom (system.file fd).fPos fd trace final commands.flatten) ∧
    ((system.file fd).fPos = 0 → system.world.storedSize < 2 ^ 63 →
      ∀ counts : Nat → Nat, (∀ number, 0 < counts number) →
      ∃ reads trace final reply next, ∃ commands : List (List Byte),
        run System.exec (readsWith fd counts reads) system = .ok (trace, final) ∧
        (∀ event ∈ trace, 0 < event.2.retval) ∧
        System.exec (.read fd ⟨true, counts reads, false⟩) final = .ok (reply, next) ∧
        reply.retval = 0 ∧ system.world.stored = commands.map .ok ∧ delivered trace = commands.flatten) := by
  obtain ⟨log, h⟩ := hReach.represents
  refine ⟨fun hSize call hCount => ?_, fun ops trace final hOps hKeep hRun hSize => ?_,
    fun hStart hSize counts hCounts => ?_⟩
  · obtain ⟨reply, next, hExec, hExact, _⟩ := exec_read_exact h hRange hSize hCount
    exact ⟨reply, next, hExec, hExact⟩
  · obtain ⟨last, hLast, hGiven⟩ := run_givenFrom h hRange hOps hKeep hRun hSize
    obtain ⟨before, earlier, hBefore⟩ := hReach
    have hWhole := run_append_ok_iff.mpr ⟨earlier, system, trace, hBefore, hRun, rfl⟩
    exact ⟨⟨before ++ ops, _, hWhole⟩, lastCommands last, hLast.ring.stored, hGiven⟩
  · obtain ⟨reads, trace, final, reply, next, hRun, hPositive, hExec, hZero, hWhole⟩ :=
      @reads_end _ _ _ counts 0 h hRange hStart hSize hCounts
    exact ⟨reads, trace, final, reply, next, lastCommands log, hRun, hPositive, hExec, hZero,
      h.ring.stored, hWhole⟩

/-- After the write of a line, one byte at a time. -/
theorem read_back_line : ∃ written system,
    run System.exec [.write 0 (wholeWrite [97, 98, newline])] System.initial = .ok (written, system) ∧
    ∃ reads trace final reply next, ∃ commands : List (List Byte),
      run System.exec (readsWith 0 (fun _ => 1) reads) system = .ok (trace, final) ∧
      (∀ event ∈ trace, 0 < event.2.retval) ∧
      System.exec (.read 0 ⟨true, 1, false⟩) final = .ok (reply, next) ∧
      reply.retval = 0 ∧ system.world.stored = commands.map .ok ∧ delivered trace = commands.flatten := by
  obtain ⟨written, system, hRun, hStart, hSize⟩ : ∃ written system,
      run System.exec [.write 0 (wholeWrite [97, 98, newline])] System.initial = .ok (written, system) ∧
        (system.file 0).fPos = 0 ∧ system.world.storedSize = 3 := ⟨_, _, rfl, rfl, rfl⟩
  exact ⟨written, system, hRun, (read_back system 0 ⟨_, written, hRun⟩
    (by simp [System.InRange, hStart])).2.2 hStart (by simp [hSize]) (fun _ => 1) fun _ => Nat.one_pos⟩

end Aesd
