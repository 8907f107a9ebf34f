import Aesd.Driver.ReadBack

/-! Seeking relative to the end. The counter that the seek adds to counts
every byte that was ever accepted, whether or not it can still be read. -/
namespace Aesd
open Kernel Word Memory Execution CommandLog

/-- The accepted bytes that no slot has: those of the commands that were
overwritten and those that are pending. -/
def notStored (log : WriteLog) : Nat :=
  (log.commands.take (log.commands.length - aesdcharMaxWriteOperationsSupported)).flatten.length +
    log.pending.length

/-- A seek to the end goes to the first position at which a read gives
nothing, and a seek back from the end to where the last bytes begin. -/
structure SeekEndExact (system : System) (fd : Nat) : Prop where
  counter : system.world.dev.bufferSize = system.world.storedSize
  atEnd : ∃ reply next, System.exec (.llseek fd 0 SEEK_END) system = .ok (reply, next) ∧
    ∃ stop : Nat, reply.retval = stop ∧ (next.file fd).fPos = stop ∧
      ∀ position : Nat, position ≤ stop → ∀ count, 0 < count → ∃ answer after,
        System.exec (.read fd ⟨true, count, false⟩) (next.setFile fd ⟨position⟩) = .ok (answer, after) ∧
          (answer.retval = 0 ↔ position = stop)
  back : ∀ count : Nat, 0 < count → count ≤ system.world.storedSize →
    ∀ counts : Nat → Nat, (∀ number, 0 < counts number) → ∃ reply next,
      System.exec (.llseek fd (-count) SEEK_END) system = .ok (reply, next) ∧ 0 ≤ reply.retval ∧
      ∃ reads trace final answer after, ∃ commands : List (List Byte),
        run System.exec (readsWith fd counts reads) next = .ok (trace, final) ∧
        (∀ event ∈ trace, 0 < event.2.retval) ∧
        System.exec (.read fd ⟨true, counts reads, false⟩) final = .ok (answer, after) ∧
        answer.retval = 0 ∧ system.world.stored = commands.map .ok ∧
        delivered trace = commands.flatten.drop (commands.flatten.length - count)

variable {system : System} {world : World} {log : WriteLog} {fd : Nat} {filp : File}

theorem contents_length : log.contents.length = notStored log + (lastCommands log).flatten.length := by
  have hSplit := List.take_append_drop
    (log.commands.length - aesdcharMaxWriteOperationsSupported) log.commands
  have hLength : log.commands.flatten.length =
      (log.commands.take (log.commands.length - aesdcharMaxWriteOperationsSupported)).flatten.length +
        (lastCommands log).flatten.length := by
    conv_lhs => rw [← hSplit, List.flatten_append, List.length_append]
    rfl
  rw [Log.contents, List.length_append, hLength, notStored]
  omega

theorem notStored_eq_zero_iff : notStored log = 0 ↔
    log.pending = [] ∧ log.commands.length ≤ aesdcharMaxWriteOperationsSupported := by
  have hNonempty : ∀ command ∈ log.commands, command ≠ [] := fun command hCommand =>
    List.ne_nil_of_mem (log.complete command hCommand)
  have hFlatten : (log.commands.take
      (log.commands.length - aesdcharMaxWriteOperationsSupported)).flatten.length = 0 ↔
        log.commands.length ≤ aesdcharMaxWriteOperationsSupported := by
    rw [List.length_eq_zero_iff, List.flatten_eq_nil_iff]
    constructor
    · intro hNil
      refine Nat.le_of_not_lt fun hMany => ?_
      have hSome : 0 < log.commands.length := by omega
      have hFirst : log.commands[0] ∈
          log.commands.take (log.commands.length - aesdcharMaxWriteOperationsSupported) :=
        List.mem_take_iff_getElem.mpr ⟨0, by omega, rfl⟩
      exact hNonempty _ (List.getElem_mem _) (hNil _ hFirst)
    · intro hFew
      rw [Nat.sub_eq_zero_of_le hFew]
      simp
  rw [notStored, Nat.add_eq_zero_iff, hFlatten, List.length_eq_zero_iff, and_comm]

theorem aesdLlseek_end {off : Int} {position : Nat}
    (hPosition : signed64 (world.dev.bufferSize + off) = position) :
    aesdLlseek off SEEK_END world filp = ((position : Int), ⟨(position : Int)⟩) := by
  have hEnd : aesdLlseek off SEEK_END world filp =
      if signed64 (world.dev.bufferSize + off) < 0 then (-EINVAL, filp)
      else (signed64 (world.dev.bufferSize + off), ⟨signed64 (world.dev.bufferSize + off)⟩) := by
    simp [aesdLlseek, SEEK_SET, SEEK_CUR, SEEK_END]
  rw [hEnd, hPosition, if_neg (Int.not_lt.mpr (Int.natCast_nonneg position))]

theorem aesdLlseek_end_negative {off : Int} (hNegative : signed64 (world.dev.bufferSize + off) < 0) :
    aesdLlseek off SEEK_END world filp = (-EINVAL, filp) := by
  simp [aesdLlseek, SEEK_SET, SEEK_CUR, SEEK_END, hNegative]

theorem bufferSize_eq_iff (h : Represents world log) :
    world.dev.bufferSize = world.storedSize ↔
      world.storedSize < 2 ^ 64 ∧ notStored log % 2 ^ 64 = 0 := by
  have hTotal : world.storedSize = (lastCommands log).flatten.length := h.ring.storedSize
  have hContents := @contents_length log
  rw [h.bufferSize]
  omega

/-- Up to the end of the stored bytes a read gives something, there nothing. -/
theorem read_at_position {position count : Nat} (h : Represents system.world log)
    (hSize : system.world.storedSize < 2 ^ 63) (hPosition : position ≤ system.world.storedSize)
    (hCount : 0 < count) : ∃ answer after,
      System.exec (.read fd ⟨true, count, false⟩) (system.setFile fd ⟨position⟩) = .ok (answer, after) ∧
        (answer.retval = 0 ↔ position = system.world.storedSize) := by
  have hRange : (system.setFile fd ⟨position⟩).InRange fd := by
    rw [System.InRange, setFile_file_self]
    constructor <;> dsimp only <;> omega
  obtain ⟨answer, after, hExec, hExact, _⟩ :=
    @exec_read_exact (system.setFile fd ⟨position⟩) log ⟨true, count, false⟩ fd h hRange hSize hCount
  have hEnded := hExact.ended (hExact.succeeds rfl rfl)
  rw [setFile_file_self, setFile_world] at hEnded
  refine ⟨answer, after, hExec, hEnded.trans ?_⟩
  dsimp only
  omega

theorem seekEndExact_of_counter (h : Represents system.world log)
    (hSize : system.world.storedSize < 2 ^ 63)
    (hCounter : system.world.dev.bufferSize = system.world.storedSize) : SeekEndExact system fd where
  counter := hCounter
  atEnd := by
    have hEnd : signed64 (system.world.dev.bufferSize + 0) = system.world.storedSize := by
      rw [hCounter, Int.add_zero]
      exact signed64_of_range (by omega) (by omega)
    have hSeek := @aesdLlseek_end system.world (system.file fd) 0 _ hEnd
    refine ⟨⟨system.world.storedSize, []⟩, system.setFile fd ⟨system.world.storedSize⟩, ?_,
      system.world.storedSize, rfl, by rw [setFile_file_self], ?_⟩
    · rw [exec_llseek, hSeek]
    · intro position hPosition count hCount
      exact @read_at_position (system.setFile fd ⟨system.world.storedSize⟩) log fd position count h hSize
        hPosition hCount
  back := by
    intro count _ hCount counts hCounts
    have hStart : signed64 (system.world.dev.bufferSize + -count) =
        (system.world.storedSize - count : Nat) := by
      rw [hCounter, signed64_of_range (by omega) (by omega)]
      omega
    have hSeek := @aesdLlseek_end system.world (system.file fd) (-count) _ hStart
    have hRange : (system.setFile fd ⟨(system.world.storedSize - count : Nat)⟩).InRange fd := by
      rw [System.InRange, setFile_file_self]
      constructor <;> dsimp only <;> omega
    obtain ⟨reads, trace, final, answer, after, hRun, hPositive, hExec, hZero, hWhole⟩ :=
      @reads_end (system.setFile fd ⟨(system.world.storedSize - count : Nat)⟩) log fd counts
        (system.world.storedSize - count) h hRange (by rw [setFile_file_self]) hSize hCounts
    refine ⟨⟨(system.world.storedSize - count : Nat), []⟩,
      system.setFile fd ⟨(system.world.storedSize - count : Nat)⟩, ?_, Int.natCast_nonneg _, reads, trace,
      final, answer, after, lastCommands log, hRun, hPositive, hExec, hZero, h.ring.stored, ?_⟩
    · rw [exec_llseek, hSeek]
    · rw [hWhole, h.ring.storedSize]
      rfl

/-- A counter beyond the signed range is refused as a position. -/
theorem storedSize_lt_of_seekEndExact (hExact : SeekEndExact system fd)
    (hWord : system.world.storedSize < 2 ^ 64) : system.world.storedSize < 2 ^ 63 := by
  refine Nat.lt_of_not_le fun hLarge => ?_
  have hNegative : signed64 (system.world.dev.bufferSize + 0) < 0 := by
    rw [hExact.counter, Int.add_zero]
    exact signed64_neg_of_large (by omega) (by omega)
  have hSeek := @aesdLlseek_end_negative system.world (system.file fd) 0 hNegative
  obtain ⟨reply, next, hExec, stop, hStop, _⟩ := hExact.atEnd
  rw [exec_llseek, hSeek, Except.ok.injEq, Prod.mk.injEq] at hExec
  rw [← hExec.1] at hStop
  simp only [EINVAL] at hStop
  omega

/-- The end that a seek finds is the end of what can be read exactly when
every accepted byte is stored, up to a multiple of what the counter holds. -/
theorem seekEndExact_iff (ops : List Op) (trace : List (Op × Reply)) (system : System) (fd : Nat)
    (hRun : run System.exec ops System.initial = .ok (trace, system)) :
    (SeekEndExact system fd ↔
      system.world.storedSize < 2 ^ 63 ∧ notStored (logOf trace) % 2 ^ 64 = 0) ∧
    ((logOf trace).contents.length < 2 ^ 63 → (SeekEndExact system fd ↔
      (logOf trace).pending = [] ∧
        (logOf trace).commands.length ≤ aesdcharMaxWriteOperationsSupported)) := by
  have h := run_represents hRun
  have hExact : SeekEndExact system fd ↔
      system.world.storedSize < 2 ^ 63 ∧ notStored (logOf trace) % 2 ^ 64 = 0 := by
    constructor
    · intro hExact
      obtain ⟨hWord, hStored⟩ := (bufferSize_eq_iff h).mp hExact.counter
      exact ⟨storedSize_lt_of_seekEndExact hExact hWord, hStored⟩
    · rintro ⟨hSize, hStored⟩
      exact seekEndExact_of_counter h hSize ((bufferSize_eq_iff h).mpr ⟨by omega, hStored⟩)
  refine ⟨hExact, fun hContents => ?_⟩
  have hTotal : system.world.storedSize = (lastCommands (logOf trace)).flatten.length := h.ring.storedSize
  have hSplit := @contents_length (logOf trace)
  rw [hExact, ← notStored_eq_zero_iff]
  omega

theorem seekEndExact_line : ∃ trace system,
    run System.exec [.write 0 (wholeWrite [97, newline])] System.initial = .ok (trace, system) ∧
      SeekEndExact system 0 := by
  obtain ⟨trace, system, hRun, hSize, hStored⟩ : ∃ trace system,
      run System.exec [.write 0 (wholeWrite [97, newline])] System.initial = .ok (trace, system) ∧
        system.world.storedSize = 2 ∧ notStored (logOf trace) = 0 := ⟨_, _, rfl, rfl, rfl⟩
  exact ⟨trace, system, hRun, (seekEndExact_iff _ trace system 0 hRun).1.mpr
    ⟨by simp [hSize], by simp [hStored]⟩⟩

/-- One pending byte is counted, and nothing can be read. -/
theorem not_seekEndExact : ¬ ∀ (calls : List WriteCall) (trace : List (Op × Reply)) (system : System)
    (fd : Nat), run System.exec (calls.map (.write fd)) System.initial = .ok (trace, system) →
    SeekEndExact system fd := by
  intro hClaim
  obtain ⟨trace, system, hRun, hCounter, hStored⟩ : ∃ trace system,
      run System.exec ([wholeWrite [97]].map (.write 0)) System.initial = .ok (trace, system) ∧
        system.world.dev.bufferSize = 1 ∧ system.world.storedSize = 0 := ⟨_, _, rfl, rfl, rfl⟩
  have hSame := (hClaim _ trace system 0 hRun).counter
  rw [hCounter, hStored] at hSame
  cases hSame

end Aesd
