import Aesd.Driver.Ownership
import Aesd.Driver.Seek

/-! What the seek call accepts: which indices of the array it uses, which
offsets it takes, and what it leaves alone when it fails. -/
namespace Aesd
open Kernel Word Memory Execution CommandLog

/-- The indices that the summing loop uses. It reads an unpopulated slot too,
before it leaves. -/
def sumIndices (entryAt : Nat → AesdBufferEntry) : Nat → Nat → List Nat
  | 0, _ => []
  | left + 1, index =>
      index :: if (entryAt index).populated then sumIndices entryAt left (index + 1) else []

/-- The indices of the loop and that of the access behind it. -/
def seekIndices (entryAt : Nat → AesdBufferEntry) (seekCmd : AesdSeekto) : List Nat :=
  sumIndices entryAt seekCmd.writeCmd.toNat 0 ++ [seekCmd.writeCmd.toNat]

/-- Every index that the call uses on the array of entries. -/
def IoctlCall.indices (call : IoctlCall) (dev : AesdDev) : List Nat :=
  if call.cmd ≠ AESDCHAR_IOCSEEKTO then []
  else match call.arg with
  | none => []
  | some seekCmd =>
      if seekCmd.writeCmd < 0 ∨ seekCmd.writeCmd.toNat > aesdcharMaxWriteOperationsSupported then []
      else match mutexLockInterruptible call.interrupted dev with
        | .ok (false, dev) => seekIndices (call.entryAt dev.aesdCb) seekCmd
        | _ => []

/-- The call names the command behind the last slot, and gets to the lock. -/
def IoctlCall.NamesEnd (call : IoctlCall) (dev : AesdDev) : Prop :=
  ∃ seekCmd, call.cmd = AESDCHAR_IOCSEEKTO ∧ call.arg = some seekCmd ∧
    seekCmd.writeCmd.toNat = aesdcharMaxWriteOperationsSupported ∧
    call.interrupted = false ∧ dev.mxLock = false

variable {entryAt other : Nat → AesdBufferEntry} {seekCmd : AesdSeekto} {filp : File} {call : IoctlCall}
  {dev : AesdDev} {world : World} {left index first : Nat} {locOff : Int} {commands : List (List Byte)}

theorem sumLoop_congr (h : ∀ used ∈ sumIndices entryAt left index, other used = entryAt used) :
    sumLoop other left index locOff = sumLoop entryAt left index locOff := by
  induction left generalizing index locOff with
  | zero => rfl
  | succ left ih =>
      rw [sumIndices, List.forall_mem_cons] at h
      obtain ⟨hFirst, hRest⟩ := h
      rw [sumLoop, sumLoop, hFirst]
      by_cases hPopulated : (entryAt index).populated = true
      · rw [if_pos hPopulated] at hRest
        rw [if_pos hPopulated, if_pos hPopulated]
        exact ih hRest
      · rw [if_neg hPopulated, if_neg hPopulated]

/-- The seek depends on the entries at its indices only. -/
theorem seekTo_congr (h : ∀ used ∈ seekIndices entryAt seekCmd, other used = entryAt used) :
    seekTo other seekCmd filp = seekTo entryAt seekCmd filp := by
  obtain ⟨hLoop, hLast⟩ := List.forall_mem_append.mp h
  have hEntry := hLast _ (List.mem_singleton_self _)
  rw [seekTo, seekTo, sumLoop_congr hLoop, hEntry]

theorem sumIndices_lt : ∀ used ∈ sumIndices entryAt left index, used < index + left := by
  induction left generalizing index with
  | zero => simp [sumIndices]
  | succ left ih =>
      intro used hUsed
      rcases List.mem_cons.mp hUsed with rfl | hLater
      · omega
      · split at hLater
        · have := ih used hLater
          omega
        · cases hLater

theorem seekIndices_lt_iff {bound : Nat} :
    (∀ used ∈ seekIndices entryAt seekCmd, used < bound) ↔ seekCmd.writeCmd.toNat < bound := by
  constructor
  · exact fun h => h _ (List.mem_append_right _ (List.mem_singleton_self _))
  · intro hBound used hUsed
    rcases List.mem_append.mp hUsed with hLoop | hLast
    · have := sumIndices_lt used hLoop
      omega
    · rw [List.mem_singleton.mp hLast]
      exact hBound

theorem mutexLock_acquired {interrupted : Bool} {locked : AesdDev}
    (h : mutexLockInterruptible interrupted dev = .ok (false, locked)) :
    interrupted = false ∧ dev.mxLock = false := by
  unfold mutexLockInterruptible at h
  split at h
  · cases h
  · next hInterrupted =>
    split at h
    · cases h
    · next hLock => exact ⟨eq_false_of_ne_true hInterrupted, eq_false_of_ne_true hLock⟩

/-- The check lets one number through that is no index. -/
theorem indices_lt_iff : (∀ used ∈ call.indices dev, used < aesdcharMaxWriteOperationsSupported) ↔
    ¬ call.NamesEnd dev := by
  by_cases hSought : ∃ seekCmd, call.cmd = AESDCHAR_IOCSEEKTO ∧ call.arg = some seekCmd ∧
      seekCmd.writeCmd.toNat ≤ aesdcharMaxWriteOperationsSupported ∧ call.interrupted = false ∧
      dev.mxLock = false
  · obtain ⟨seekCmd, hCmd, hArg, hBound, hInterrupted, hLock⟩ := hSought
    have hIndices : call.indices dev = seekIndices (call.entryAt dev.aesdCb) seekCmd := by
      simp only [IoctlCall.indices, hCmd, hArg, if_neg (writeCmd_checked hBound), mutexLockInterruptible,
        hInterrupted, hLock, ne_eq, not_true_eq_false, Bool.false_eq_true, ↓reduceIte]
    rw [hIndices, seekIndices_lt_iff]
    constructor
    · rintro hLess ⟨same, _, hSame, hEnd, _, _⟩
      obtain rfl := Option.some.inj (hArg.symm.trans hSame)
      omega
    · intro hInside
      by_contra hEnd
      exact hInside ⟨seekCmd, hCmd, hArg, by omega, hInterrupted, hLock⟩
  · have hNone : call.indices dev = [] := by
      unfold IoctlCall.indices
      split
      · rfl
      · next hCmd =>
        split
        · rfl
        · next seekCmd hArg =>
          split
          · rfl
          · next hBound =>
            split
            · next locked hLocked =>
              obtain ⟨hInterrupted, hLock⟩ := mutexLock_acquired hLocked
              exact absurd ⟨seekCmd, not_ne_iff.mp hCmd, hArg, Nat.le_of_not_lt (not_or.mp hBound).2,
                hInterrupted, hLock⟩ hSought
            · rfl
    refine iff_of_true (by simp [hNone]) ?_
    rintro ⟨seekCmd, hCmd, hArg, hEnd, hInterrupted, hLock⟩
    exact hSought ⟨seekCmd, hCmd, hArg, Nat.le_of_eq hEnd, hInterrupted, hLock⟩

/-- Where its indices are inside the array, a call does the same whatever is
in memory behind it. -/
theorem aesdIoctl_stray (h : ¬ call.NamesEnd world.dev) (stray : AesdBufferEntry) :
    aesdIoctl { call with stray } world filp = aesdIoctl call world filp := by
  unfold aesdIoctl
  dsimp only
  split
  · rfl
  · next hCmd =>
    split
    · rfl
    · next seekCmd hArg =>
      split
      · rfl
      · next hBound =>
        cases hLocked : mutexLockInterruptible call.interrupted world.dev with
        | error stop => rfl
        | ok locked =>
            obtain ⟨failed, dev⟩ := locked
            cases failed with
            | true => rfl
            | false =>
                obtain ⟨hInterrupted, hLock⟩ := mutexLock_acquired hLocked
                have hInside : seekCmd.writeCmd.toNat < aesdcharMaxWriteOperationsSupported := by
                  have hAtMost := Nat.le_of_not_lt (not_or.mp hBound).2
                  refine Nat.lt_of_le_of_ne hAtMost fun hEnd => ?_
                  exact h ⟨seekCmd, not_ne_iff.mp hCmd, hArg, hEnd, hInterrupted, hLock⟩
                simp only [bind, Except.bind]
                rw [seekTo_congr fun used hUsed => ?_]
                have hUsedInside := seekIndices_lt_iff.mpr hInside used hUsed
                rw [IoctlCall.entryAt, IoctlCall.entryAt, if_pos hUsedInside, if_pos hUsedInside]

theorem seekTo_unpopulated (h : (entryAt seekCmd.writeCmd.toNat).populated = false) :
    seekTo entryAt seekCmd filp = (-EINVAL, filp) := by
  simp [seekTo, h]

/-- A seek to an offset inside a populated entry moves all files but those that
are there already, even where the loop has found an error. -/
theorem seekTo_moves (hPopulated : (entryAt seekCmd.writeCmd.toNat).populated = true)
    (hInside : seekCmd.writeCmdOffset.toNat ≤ (entryAt seekCmd.writeCmd.toNat).size) :
    ∃ filp, (seekTo entryAt seekCmd filp).2 ≠ filp := by
  obtain ⟨place, hPlace⟩ : ∃ place, place =
    signed64 ((sumLoop entryAt seekCmd.writeCmd.toNat 0 0).2 + seekCmd.writeCmdOffset.toNat) := ⟨_, rfl⟩
  have hMoved : (seekTo entryAt seekCmd ⟨place + 1⟩).2 = ⟨place⟩ := by
    simp [seekTo, hPopulated, Nat.not_lt_of_le hInside, hPlace]
  refine ⟨⟨place + 1⟩, fun hSame => ?_⟩
  rw [hMoved, File.mk.injEq] at hSame
  omega

/-- The indices are inside the array exactly where a call like this one does
the same whatever is in memory behind it. -/
theorem aesdIoctl_stray_iff :
    (∀ stray filp, aesdIoctl { call with stray } world filp = aesdIoctl call world filp) ↔
      ∀ used ∈ call.indices world.dev, used < aesdcharMaxWriteOperationsSupported := by
  rw [indices_lt_iff]
  refine ⟨?_, fun hInside stray filp => aesdIoctl_stray hInside stray⟩
  rintro hSame ⟨seekCmd, hCmd, hArg, hEnd, hInterrupted, hLock⟩
  have hBehind : ∀ stray, ({ call with stray } : IoctlCall).entryAt world.dev.aesdCb seekCmd.writeCmd.toNat = stray := by
    intro stray
    rw [IoctlCall.entryAt, if_neg (by omega)]
  have hSeek : ∀ stray filp, aesdIoctl { call with stray } world filp =
      .ok ((seekTo (({ call with stray } : IoctlCall).entryAt world.dev.aesdCb) seekCmd filp).1, world,
        (seekTo (({ call with stray } : IoctlCall).entryAt world.dev.aesdCb) seekCmd filp).2) := by
    intro stray filp
    exact aesdIoctl_sought hCmd hArg (Nat.le_of_eq hEnd) hInterrupted hLock
  -- an empty entry behind the array leaves the file, a big enough one moves it
  obtain ⟨big, hBig⟩ : ∃ big : AesdBufferEntry, big = ⟨.zeroSize, seekCmd.writeCmdOffset.toNat + 1⟩ := ⟨_, rfl⟩
  obtain ⟨filp, hMoves⟩ := @seekTo_moves (({ call with stray := big } : IoctlCall).entryAt world.dev.aesdCb) seekCmd
    (by rw [hBehind, hBig]; simp [AesdBufferEntry.populated]) (by rw [hBehind, hBig]; exact Nat.le_succ _)
  have hStays : seekTo (({ call with stray := .zero } : IoctlCall).entryAt world.dev.aesdCb) seekCmd filp =
      (-EINVAL, filp) := seekTo_unpopulated (by rw [hBehind]; rfl)
  have hBoth := (hSame big filp).trans (hSame .zero filp).symm
  rw [hSeek big, hSeek .zero, hStays, Except.ok.injEq, Prod.mk.injEq, Prod.mk.injEq] at hBoth
  exact hMoves hBoth.2.2

/-- Every seek call of the run stays inside the array. -/
def SeeksInRange (ops : List Op) : Prop :=
  ∀ before fd call after trace system, ops = before ++ .ioctl fd call :: after →
    run System.exec before System.initial = .ok (trace, system) →
    ∀ used ∈ call.indices system.world.dev, used < aesdcharMaxWriteOperationsSupported

/-- In a run, from whatever state it reaches, the seek calls stay inside the
array exactly when none of them names command ten and gets to the lock. -/
theorem seeksInRange_iff (ops : List Op) : SeeksInRange ops ↔
    ∀ before fd call after trace system, ops = before ++ .ioctl fd call :: after →
      run System.exec before System.initial = .ok (trace, system) → ¬ call.NamesEnd system.world.dev := by
  unfold SeeksInRange
  simp only [indices_lt_iff]

/-- The seek calls of a run stay inside the array exactly when what each of them
does is the same whatever lies behind it. -/
theorem seeksInRange_iff_unaffected (ops : List Op) : SeeksInRange ops ↔
    ∀ before fd call after trace system, ops = before ++ .ioctl fd call :: after →
      run System.exec before System.initial = .ok (trace, system) → ∀ stray filp,
        aesdIoctl { call with stray } system.world filp = aesdIoctl call system.world filp := by
  unfold SeeksInRange
  simp only [aesdIoctl_stray_iff]

/-- The array has ten entries, and on the empty device the call for command
ten uses the index ten. -/
theorem not_seeksInRange : ¬ ∀ ops, SeeksInRange ops := by
  intro hClaim
  have hUsed := hClaim [.ioctl 0 (seekCall ⟨10, 0⟩ .zero)] [] 0 _ [] [] System.initial rfl rfl 10
    (by decide)
  exact absurd hUsed (by decide)

/-- The seek succeeds exactly for an offset inside a populated slot, and then
the file is in front of the end and a read gives at least one byte. -/
def SeekLands (world : World) (seekCmd : AesdSeekto) : Prop :=
  ∀ stray filp, ∃ retval after, aesdIoctl (seekCall seekCmd stray) world filp = .ok (retval, world, after) ∧
    (retval = 0 ↔ (world.dev.aesdCb.slot seekCmd.writeCmd.toNat).populated = true ∧
      seekCmd.writeCmdOffset.toNat < (world.dev.aesdCb.slot seekCmd.writeCmd.toNat).size) ∧
    (retval = 0 → after.fPos < world.storedSize ∧ ∀ count, 0 < count → ∃ bytes final,
      aesdRead ⟨true, count, false⟩ world after = .ok ((bytes.length : Nat), bytes, final) ∧
        0 < bytes.length)

/-- The populated slots are those of the stored commands, a prefix of the
array. -/
theorem RingHolds.populated_iff (h : RingHolds world commands) :
    (world.dev.aesdCb.slot index).populated = true ↔
      index < (commands.rtake aesdcharMaxWriteOperationsSupported).length := by
  refine ⟨fun hPopulated => ?_, h.populated⟩
  by_contra hVacant
  rw [Ring.rtake_length] at hVacant
  rw [h.vacant (by omega)] at hPopulated
  cases hPopulated

/-- A call for a slot without a command fails, whatever the loop has found. -/
theorem aesdIoctl_vacant {stray : AesdBufferEntry} (hLock : world.dev.mxLock = false)
    (hCmd : seekCmd.writeCmd.toNat < aesdcharMaxWriteOperationsSupported)
    (hVacant : (world.dev.aesdCb.slot seekCmd.writeCmd.toNat).populated = false) :
    aesdIoctl (seekCall seekCmd stray) world filp = .ok (-EINVAL, world, filp) := by
  have hEntry : (seekCall seekCmd stray).entryAt world.dev.aesdCb seekCmd.writeCmd.toNat =
      world.dev.aesdCb.slot seekCmd.writeCmd.toNat := by
    rw [IoctlCall.entryAt, if_pos hCmd]
  rw [@aesdIoctl_sought world filp (seekCall seekCmd stray) seekCmd rfl rfl (Nat.le_of_lt hCmd) rfl hLock,
    seekTo_unpopulated (hEntry ▸ hVacant)]

/-- In front of the end, a read gives at least one byte. -/
theorem RingHolds.read_some {count : Nat} (h : RingHolds world commands)
    (hSize : (commands.rtake aesdcharMaxWriteOperationsSupported).flatten.length < 2 ^ 64)
    (hInside : unsigned64 filp.fPos <
      (commands.rtake aesdcharMaxWriteOperationsSupported).flatten.length) (hCount : 0 < count) :
    ∃ bytes final, aesdRead ⟨true, count, false⟩ world filp = .ok ((bytes.length : Nat), bytes, final) ∧
      0 < bytes.length := by
  have hOutcome := aesdRead_outcome h hSize ⟨true, count, false⟩ filp
  generalize aesdRead ⟨true, count, false⟩ world filp = outcome at hOutcome
  cases hOutcome with
  | noBuffer hBuf => cases hBuf
  | atEnd hBuf hEnd => omega
  | failed hBuf hFront hFails => cases hFails
  | copied index offset hBuf hIndex hLocate =>
      exact ⟨_, _, rfl, (take_of_locate hIndex hLocate).2.2 hCount⟩

theorem signed64_le_of_lt {value : Int} (hLow : 0 ≤ value) (hHigh : value < 2 ^ 64) :
    signed64 value ≤ value := by
  by_cases hSmall : value < 2 ^ 63
  · exact Int.le_of_eq (signed64_of_range (by omega) hSmall)
  · have := signed64_neg_of_large (Int.not_lt.mp hSmall) hHigh
    omega

/-- In every state of every run, the seek to a slot of the array is exact but
for the offset that is the size of the command. -/
theorem seekLands_iff (system : System) (seekCmd : AesdSeekto) (hReachable : Reachable system)
    (hLock : system.world.dev.mxLock = false) (hSize : system.world.storedSize < 2 ^ 64)
    (hCmd : seekCmd.writeCmd.toNat < aesdcharMaxWriteOperationsSupported) :
    SeekLands system.world seekCmd ↔
      ¬ ((system.world.dev.aesdCb.slot seekCmd.writeCmd.toNat).populated = true ∧
        seekCmd.writeCmdOffset.toNat = (system.world.dev.aesdCb.slot seekCmd.writeCmd.toNat).size) := by
  obtain ⟨log, h⟩ := hReachable.represents
  have hTotal := h.ring.storedSize
  rw [hTotal] at hSize
  constructor
  · rintro hLands ⟨hPopulated, hEnd⟩
    obtain ⟨retval, after, hIoctl, hZero, _⟩ := hLands .zero ⟨0⟩
    rw [aesdIoctl_stored h.ring hLock (h.ring.populated_iff.mp hPopulated), if_neg (by omega)] at hIoctl
    rw [Except.ok.injEq, Prod.mk.injEq] at hIoctl
    have := (hZero.mp hIoctl.1.symm).2
    omega
  · intro hNotEnd stray filp
    by_cases hPopulated : (system.world.dev.aesdCb.slot seekCmd.writeCmd.toNat).populated = true
    · have hStored := h.ring.populated_iff.mp hPopulated
      by_cases hInside : seekCmd.writeCmdOffset.toNat <
          (system.world.dev.aesdCb.slot seekCmd.writeCmd.toNat).size
      · have hNext := @sizesByIndex_succ system.world.dev.aesdCb seekCmd.writeCmd.toNat
        have hMono := @sizesByIndex_mono system.world.dev.aesdCb (seekCmd.writeCmd.toNat + 1) _ hStored
        rw [sizesByIndex_stored h.ring] at hMono
        refine ⟨0, _, (aesdIoctl_stored h.ring hLock hStored).trans (if_neg (by omega)),
          iff_of_true rfl ⟨hPopulated, hInside⟩, fun _ => ⟨?_, fun count hCount => ?_⟩⟩
        · have := @signed64_le_of_lt (system.world.dev.aesdCb.sizesByIndex seekCmd.writeCmd.toNat +
            seekCmd.writeCmdOffset.toNat) (by omega) (by omega)
          rw [hTotal]
          dsimp only
          omega
        · refine h.ring.read_some hSize ?_ hCount
          rw [unsigned64_signed64]
          have := @unsigned64_of_lt (system.world.dev.aesdCb.sizesByIndex seekCmd.writeCmd.toNat +
            seekCmd.writeCmdOffset.toNat) (by omega)
          push_cast at this
          omega
      · refine ⟨-EINVAL, filp, (aesdIoctl_stored h.ring hLock hStored).trans (if_pos ?_),
          iff_of_false (by decide) fun hBoth => hInside hBoth.2, fun hZero => absurd hZero (by decide)⟩
        exact Nat.lt_of_le_of_ne (Nat.le_of_not_lt hInside) fun hEnd => hNotEnd ⟨hPopulated, hEnd.symm⟩
    · exact ⟨-EINVAL, filp, aesdIoctl_vacant hLock hCmd (eq_false_of_ne_true hPopulated),
        iff_of_false (by decide) fun hBoth => hPopulated hBoth.1, fun hZero => absurd hZero (by decide)⟩

theorem seekLands_iff_line : ∃ trace system,
    run System.exec [.write 0 (wholeWrite [97, newline])] System.initial = .ok (trace, system) ∧
    (SeekLands system.world ⟨0, 1⟩ ↔ ¬ ((system.world.dev.aesdCb.slot 0).populated = true ∧
      1 = (system.world.dev.aesdCb.slot 0).size)) := by
  obtain ⟨trace, system, hRun, hLock, hSize⟩ : ∃ trace system,
      run System.exec [.write 0 (wholeWrite [97, newline])] System.initial = .ok (trace, system) ∧
        system.world.dev.mxLock = false ∧ system.world.storedSize = 2 :=
    ⟨_, _, rfl, rfl, rfl⟩
  exact ⟨trace, system, hRun, seekLands_iff system ⟨0, 1⟩ ⟨_, _, hRun⟩ hLock (by simp [hSize]) (by decide)⟩

/-- On a device with the one command of two bytes, the seek to its byte two
succeeds: there is no such byte. -/
theorem not_seekLands : ¬ ∀ (system : System) (seekCmd : AesdSeekto), Reachable system →
    system.world.dev.mxLock = false → system.world.storedSize < 2 ^ 64 →
    seekCmd.writeCmd.toNat < aesdcharMaxWriteOperationsSupported → SeekLands system.world seekCmd := by
  intro hClaim
  obtain ⟨trace, system, hRun, hLock, hSize, hIoctl, hSlot⟩ : ∃ trace system,
      run System.exec [.write 0 (wholeWrite [97, newline])] System.initial = .ok (trace, system) ∧
        system.world.dev.mxLock = false ∧ system.world.storedSize = 2 ∧
        aesdIoctl (seekCall ⟨0, 2⟩ .zero) system.world ⟨0⟩ = .ok (0, system.world, ⟨2⟩) ∧
        (system.world.dev.aesdCb.slot 0).size = 2 :=
    ⟨_, _, rfl, rfl, rfl, rfl, rfl⟩
  obtain ⟨retval, after, hResult, hZero, _⟩ :=
    hClaim system ⟨0, 2⟩ ⟨_, _, hRun⟩ hLock (by simp [hSize]) (by decide) .zero ⟨0⟩
  rw [hIoctl, Except.ok.injEq, Prod.mk.injEq] at hResult
  have hInside := (hZero.mp hResult.1.symm).2
  have hByte : (2 : UInt32).toNat < (system.world.dev.aesdCb.slot 0).size := hInside
  rw [hSlot] at hByte
  exact absurd hByte (by decide)

/-- Everything a call can do that names no index behind the array. A file that
is moved is not behind the end of the stored commands. -/
inductive SeekOutcome (call : IoctlCall) (world : World) (filp : File) (commands : List (List Byte)) :
    Except Stop (Int × World × File) → Prop where
  | rejected (retval : Int) (hRetval : retval < 0) :
      SeekOutcome call world filp commands (.ok (retval, world, filp))
  | blocked (hLock : world.dev.mxLock = true) : SeekOutcome call world filp commands (.error .blocked)
  | moved (seekCmd : AesdSeekto) (hArg : call.arg = some seekCmd)
      (hStored : seekCmd.writeCmd.toNat < (commands.rtake aesdcharMaxWriteOperationsSupported).length)
      (hInside : world.dev.aesdCb.sizesByIndex seekCmd.writeCmd.toNat + seekCmd.writeCmdOffset.toNat ≤
        (commands.rtake aesdcharMaxWriteOperationsSupported).flatten.length) :
      SeekOutcome call world filp commands (.ok (0, world,
        ⟨signed64 (world.dev.aesdCb.sizesByIndex seekCmd.writeCmd.toNat + seekCmd.writeCmdOffset.toNat)⟩))

theorem aesdIoctl_seekOutcome (h : RingHolds world commands)
    (hCmd : ∀ seekCmd, call.arg = some seekCmd →
      seekCmd.writeCmd.toNat ≠ aesdcharMaxWriteOperationsSupported) :
    SeekOutcome call world filp commands (aesdIoctl call world filp) := by
  have hOutcome := aesdIoctl_outcome call world filp
  generalize hIoctl : aesdIoctl call world filp = outcome at hOutcome
  cases hOutcome with
  | rejected retval hRetval => exact .rejected retval hRetval
  | blocked hHeld => exact .blocked hHeld
  | sought seekCmd hCode hArg hBound hInterrupted hLock =>
      have hSlot := Nat.lt_of_le_of_ne hBound (hCmd seekCmd hArg)
      have hCall : call = seekCall seekCmd call.stray := by
        obtain ⟨cmd, arg, interrupted, stray⟩ := call
        cases hCode
        cases hArg
        cases hInterrupted
        rfl
      rw [← hIoctl, hCall]
      by_cases hPopulated : (world.dev.aesdCb.slot seekCmd.writeCmd.toNat).populated = true
      · have hStored := h.populated_iff.mp hPopulated
        rw [aesdIoctl_stored h hLock hStored]
        split
        · exact .rejected (-EINVAL) (by decide)
        · next hOffset =>
          have hNext := @sizesByIndex_succ world.dev.aesdCb seekCmd.writeCmd.toNat
          have hMono := @sizesByIndex_mono world.dev.aesdCb (seekCmd.writeCmd.toNat + 1) _ hStored
          rw [sizesByIndex_stored h] at hMono
          exact .moved seekCmd rfl hStored (by omega)
      · rw [aesdIoctl_vacant hLock hSlot (eq_false_of_ne_true hPopulated)]
        exact .rejected (-EINVAL) (by decide)

/-- A seek call that names no index behind the array returns, and leaves the
device as it was. If it fails it leaves the file too; if it succeeds, the
slots up to the one it names are populated and the file is at the sum of the
sizes before it and the offset. -/
theorem seek_all_or_nothing (ops : List Op) (trace : List (Op × Reply)) (system : System)
    (call : IoctlCall) (filp : File) (hGranted : ∀ op ∈ ops, op.Granted)
    (hRun : run System.exec ops System.initial = .ok (trace, system))
    (hCmd : ∀ seekCmd, call.arg = some seekCmd →
      seekCmd.writeCmd.toNat ≠ aesdcharMaxWriteOperationsSupported) :
    ∃ retval after, aesdIoctl call system.world filp = .ok (retval, system.world, after) ∧
      (retval ≠ 0 → after = filp) ∧
      (retval = 0 → ∃ seekCmd, call.arg = some seekCmd ∧
        (∀ index, index ≤ seekCmd.writeCmd.toNat →
          (system.world.dev.aesdCb.slot index).populated = true) ∧
        after.fPos = signed64 (system.world.dev.aesdCb.sizesByIndex seekCmd.writeCmd.toNat +
          seekCmd.writeCmdOffset.toNat) ∧
        (system.world.storedSize < 2 ^ 63 →
          after.fPos = system.world.dev.aesdCb.sizesByIndex seekCmd.writeCmd.toNat +
            seekCmd.writeCmdOffset.toNat)) := by
  have h := run_represents hRun
  have hOutcome := @aesdIoctl_seekOutcome filp call _ _ h.ring hCmd
  generalize aesdIoctl call system.world filp = outcome at hOutcome
  cases hOutcome with
  | rejected retval hRetval =>
      exact ⟨retval, filp, rfl, fun _ => rfl, fun hZero => absurd hRetval (by rw [hZero]; decide)⟩
  | blocked hHeld =>
      rw [granted_mxLock hGranted hRun] at hHeld
      cases hHeld
  | moved seekCmd hArg hStored hInside =>
      refine ⟨0, _, rfl, fun hZero => absurd rfl hZero, fun _ => ?_⟩
      dsimp only
      refine ⟨seekCmd, hArg, fun index hIndex => ?_, rfl, fun hSize => ?_⟩
      · exact h.ring.populated (Nat.lt_of_le_of_lt hIndex hStored)
      · rw [h.ring.storedSize] at hSize
        exact signed64_of_range (by omega) (by omega)

theorem seek_all_or_nothing_line : ∃ trace system retval after,
    run System.exec [.write 0 (wholeWrite [97, newline])] System.initial = .ok (trace, system) ∧
      aesdIoctl (seekCall ⟨1, 0⟩ .zero) system.world ⟨5⟩ = .ok (retval, system.world, after) ∧
      (retval ≠ 0 → after = ⟨5⟩) := by
  obtain ⟨trace, system, hRun⟩ : ∃ trace system,
      run System.exec [.write 0 (wholeWrite [97, newline])] System.initial = .ok (trace, system) :=
    ⟨_, _, rfl⟩
  obtain ⟨retval, after, hIoctl, hFails, _⟩ := seek_all_or_nothing _ trace system
    (seekCall ⟨1, 0⟩ .zero) ⟨5⟩ (by
      intro op hOp fd call hWrite
      rw [List.mem_singleton.mp hOp] at hWrite
      cases hWrite
      rfl) hRun (by
      intro seekCmd hArg
      cases hArg
      decide)
  exact ⟨trace, system, retval, after, hRun, hIoctl, hFails⟩

end Aesd
