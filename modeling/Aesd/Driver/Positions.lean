import Aesd.Driver.SeekBounds

/-! The positions of open files. A seek adds in one word and tests only the
sign; as long as no position is negative that test finds every sum that does
not fit. -/
namespace Aesd
open Kernel Word Memory Execution CommandLog

/-- The position is one that a word keeps and a file may have. -/
def File.InRange (filp : File) : Prop := 0 ≤ filp.fPos ∧ filp.fPos < 2 ^ 63

/-- The sum that a seek asks for, in whatever range. -/
def seekSum (off whence : Int) (world : World) (filp : File) : Option Int :=
  if whence = SEEK_SET then some off
  else if whence = SEEK_CUR then some (filp.fPos + off)
  else if whence = SEEK_END then some (world.dev.bufferSize + off)
  else none

/-- The seek stores and returns the sum, or refuses it and moves nothing; it
refuses what is no position. -/
structure SeekExact (off whence : Int) (world : World) (filp : File) : Prop where
  answer : aesdLlseek off whence world filp = (-EINVAL, filp) ∨
    ∃ sum, seekSum off whence world filp = some sum ∧ aesdLlseek off whence world filp = (sum, ⟨sum⟩)
  refused : (aesdLlseek off whence world filp).1 = -EINVAL ↔
    seekSum off whence world filp = none ∨
      ∃ sum, seekSum off whence world filp = some sum ∧ (sum < 0 ∨ 2 ^ 63 - 1 < sum)

/-- Offsets have the range of their type, and no seek names the slot behind
the array. -/
def Op.InDomain : Op → Prop
  | .llseek _ off _ => -2 ^ 63 ≤ off ∧ off < 2 ^ 63
  | .ioctl _ call => ∀ seekCmd, call.arg = some seekCmd →
      seekCmd.writeCmd.toNat ≠ aesdcharMaxWriteOperationsSupported
  | _ => True

variable {system next device : System} {world : World} {log : WriteLog} {filp after : File} {fd other : Nat}
  {off whence sum retval : Int} {data : List Byte} {readCall : ReadCall} {call : IoctlCall} {op : Op}
  {ops : List Op} {reply : Reply} {trace : List (Op × Reply)} {commands : List (List Byte)}

/-- The seek keeps the sum in a word and refuses it when it is negative there. -/
theorem aesdLlseek_eq (hLow : -2 ^ 63 ≤ off) (hHigh : off < 2 ^ 63) :
    aesdLlseek off whence world filp = match seekSum off whence world filp with
      | none => (-EINVAL, filp)
      | some sum => if signed64 sum < 0 then (-EINVAL, filp) else (signed64 sum, ⟨signed64 sum⟩) := by
  unfold aesdLlseek seekSum
  split
  · simp only [signed64_of_range hLow hHigh]
  · split
    · rfl
    · split
      · rfl
      · rfl

/-- From a position in range, no sum wraps more than once, and none downwards. -/
theorem seekSum_range (hRange : filp.InRange) (hBuffer : world.dev.bufferSize < 2 ^ 63)
    (hLow : -2 ^ 63 ≤ off) (hHigh : off < 2 ^ 63) (hSum : seekSum off whence world filp = some sum) :
    -2 ^ 63 ≤ sum ∧ sum < 2 ^ 64 := by
  obtain ⟨hStart, hEnd⟩ := hRange
  unfold seekSum at hSum
  split at hSum
  · cases hSum
    omega
  · split at hSum
    · cases hSum
      omega
    · split at hSum
      · cases hSum
        omega
      · cases hSum

theorem seekExact (hRange : filp.InRange) (hBuffer : world.dev.bufferSize < 2 ^ 63)
    (hLow : -2 ^ 63 ≤ off) (hHigh : off < 2 ^ 63) : SeekExact off whence world filp := by
  have hSeek := @aesdLlseek_eq world filp off whence hLow hHigh
  cases hSum : seekSum off whence world filp with
  | none =>
      rw [hSum] at hSeek
      exact ⟨Or.inl hSeek, iff_of_true (congrArg Prod.fst hSeek) (Or.inl hSum)⟩
  | some sum =>
      obtain ⟨hSumLow, hSumHigh⟩ := seekSum_range hRange hBuffer hLow hHigh hSum
      have hSign := signed64_neg_iff hSumLow hSumHigh
      simp only [hSum] at hSeek
      by_cases hNegative : signed64 sum < 0
      · rw [if_pos hNegative] at hSeek
        refine ⟨Or.inl hSeek, iff_of_true (congrArg Prod.fst hSeek) (Or.inr ⟨sum, hSum, ?_⟩)⟩
        have := hSign.mp hNegative
        omega
      · have hFits := mt hSign.mpr hNegative
        rw [if_neg hNegative, signed64_of_range hSumLow (by omega)] at hSeek
        refine ⟨Or.inr ⟨sum, hSum, hSeek⟩, iff_of_false ?_ ?_⟩
        · rw [hSeek]
          simp only [EINVAL]
          omega
        · rintro (hNone | ⟨same, hSame, hRefused⟩)
          · cases hSum.symm.trans hNone
          · cases hSum.symm.trans hSame
            omega

theorem aesdLlseek_inRange (hRange : filp.InRange) (hLow : -2 ^ 63 ≤ off) (hHigh : off < 2 ^ 63) :
    (aesdLlseek off whence world filp).2.InRange := by
  rw [aesdLlseek_eq hLow hHigh]
  split
  · exact hRange
  · split
    · exact hRange
    · next sum _ hSign => exact ⟨Int.not_lt.mp hSign, (signed64_range sum).2⟩

/-- A read moves a file to the end of the stored bytes at most. -/
theorem aesdRead_inRange (h : RingHolds world commands) (hSize : world.storedSize < 2 ^ 63)
    (hRange : filp.InRange) (hRead : aesdRead readCall world filp = .ok (retval, data, after)) :
    after.InRange := by
  rw [h.storedSize] at hSize
  have hOutcome := aesdRead_outcome h (by omega) readCall filp
  rw [hRead] at hOutcome
  cases hOutcome with
  | noBuffer => exact hRange
  | atEnd => exact hRange
  | failed => exact hRange
  | copied index offset hBuf hIndex hLocate hServed =>
      obtain ⟨hStart, hEnd⟩ := hRange
      obtain ⟨_, hFits, _⟩ := @take_of_locate _ _ _ _ readCall.count hIndex hLocate
      obtain ⟨position, hPosition⟩ := Int.eq_ofNat_of_zero_le hStart
      rw [hPosition, unsigned64_of_lt (by omega)] at hFits
      rw [File.InRange]
      dsimp only
      rw [hPosition, signed64_of_range (by omega) (by omega)]
      omega

/-- A seek to a command moves a file to the end of the stored bytes at most. -/
theorem aesdIoctl_inRange {next : World} (h : RingHolds world commands) (hSize : world.storedSize < 2 ^ 63)
    (hCmd : ∀ seekCmd, call.arg = some seekCmd →
      seekCmd.writeCmd.toNat ≠ aesdcharMaxWriteOperationsSupported)
    (hRange : filp.InRange) (hIoctl : aesdIoctl call world filp = .ok (retval, next, after)) :
    after.InRange := by
  rw [h.storedSize] at hSize
  have hOutcome := @aesdIoctl_seekOutcome filp call _ _ h hCmd
  rw [hIoctl] at hOutcome
  cases hOutcome with
  | rejected => exact hRange
  | moved seekCmd hArg hStored hInside =>
      rw [File.InRange]
      dsimp only
      rw [signed64_of_range (by omega) (by omega)]
      omega

theorem setFile_inRange (hRange : system.InRange fd) (hFile : other = fd → filp.InRange) :
    (system.setFile other filp).InRange fd := by
  rw [System.InRange] at hRange ⊢
  by_cases hSame : fd = other
  · rw [hSame, setFile_file_self]
    exact hFile hSame.symm
  · simpa [System.setFile, hSame] using hRange

/-- Whatever operation is next on the device, on this file or on another one,
it keeps the position in range. -/
theorem exec_inRange (h : Represents system.world log) (hSize : system.world.storedSize < 2 ^ 63)
    (hOp : op.InDomain) (hRange : system.InRange fd)
    (hExec : System.exec op system = .ok (reply, next)) : next.InRange fd := by
  cases op with
  | openFile other =>
      cases hExec
      exact setFile_inRange hRange fun _ => ⟨Int.le_refl 0, by decide⟩
  | release other =>
      cases hExec
      exact hRange
  | read other readCall =>
      obtain ⟨filp, hRead, rfl⟩ := exec_read hExec
      refine setFile_inRange hRange fun hSame => ?_
      exact aesdRead_inRange h.ring hSize (hSame ▸ hRange) hRead
  | write other writeCall =>
      obtain ⟨world, _, rfl⟩ := exec_write hExec
      exact hRange
  | llseek other off whence =>
      cases hExec
      refine setFile_inRange hRange fun hSame => ?_
      exact aesdLlseek_inRange (hSame ▸ hRange) hOp.1 hOp.2
  | ioctl other call =>
      obtain ⟨filp, hIoctl, rfl⟩ := exec_ioctl hExec
      refine setFile_inRange hRange fun hSame => ?_
      exact aesdIoctl_inRange h.ring hSize hOp (hSame ▸ hRange) hIoctl

/-- Positions stay in range over every run in which the stored bytes have the
range of a position, writes included. -/
theorem run_inRange (h : Represents device.world log) (hRange : device.InRange fd)
    (hAlong : Along System.exec (fun state op _ => op.InDomain ∧ state.world.storedSize < 2 ^ 63) ops device)
    (hRun : run System.exec ops device = .ok (trace, system)) : system.InRange fd := by
  have hEnd : (∃ log, Represents system.world log) ∧ system.InRange fd := by
    refine run_induct (fun _ system => (∃ log, Represents system.world log) ∧ system.InRange fd)
      ?_ [] ⟨⟨log, h⟩, hRange⟩ hAlong hRun
    rintro history state op reply next ⟨⟨log, hState⟩, hFile⟩ hExec ⟨hOp, hSize⟩
    exact ⟨⟨_, exec_represents hState hExec⟩, exec_inRange hState hSize hOp hFile hExec⟩
  exact hEnd.2

/-- On a device whose sizes have the range of a position, a file that was
opened is never at a negative position, and every seek from there is exact
or refused. -/
theorem positions_exact (device : System) (fd : Nat) (ops : List Op) (trace : List (Op × Reply))
    (system : System) (hReachable : Reachable device) (hBuffer : device.world.dev.bufferSize < 2 ^ 63)
    (hStored : device.world.storedSize < 2 ^ 63) (hOps : ∀ op ∈ ops, op.InDomain)
    (hQuiet : ∀ op ∈ ops, ∀ other writeCall, op ≠ .write other writeCall)
    (hRun : run System.exec (.openFile fd :: ops) device = .ok (trace, system)) :
    0 ≤ (system.file fd).fPos ∧ ∀ off whence, -2 ^ 63 ≤ off → off < 2 ^ 63 →
      SeekExact off whence system.world (system.file fd) := by
  obtain ⟨log, h⟩ := hReachable.represents
  obtain ⟨reply, opened, tail, hOpen, hRest, _⟩ := run_cons_ok_iff.mp hRun
  cases hOpen
  have hOpened : Represents (device.setFile fd aesdOpen.2).world log := h
  have hStart : (device.setFile fd aesdOpen.2).InRange fd := by
    rw [System.InRange, setFile_file_self]
    exact ⟨Int.le_refl 0, by decide⟩
  have hAlong : Along System.exec (fun state op _ => op.InDomain ∧ state.world.storedSize < 2 ^ 63) ops
      (device.setFile fd aesdOpen.2) := by
    rw [along_iff_split]
    intro before op after trace middle reply next hSplit hBefore _
    have hWorld := run_world (fun earlier hEarlier => hQuiet earlier (by simp [hSplit, hEarlier])) hBefore
    exact ⟨hOps op (by simp [hSplit]), hWorld ▸ hStored⟩
  have hRange := run_inRange hOpened hStart hAlong hRest
  have hWorld : system.world = (device.setFile fd aesdOpen.2).world := run_world hQuiet hRest
  rw [setFile_world] at hWorld
  exact ⟨hRange.1, fun off whence => seekExact hRange (hWorld ▸ hBuffer)⟩

/-- After the last byte of the only line was read, a seek by the largest
offset does not fit; neither does one from the end. -/
theorem positions_exact_line : ∃ written device trace system,
    run System.exec [.write 0 (wholeWrite [97, newline])] System.initial = .ok (written, device) ∧
    run System.exec [.openFile 1, .ioctl 1 (seekCall ⟨0, 1⟩ .zero), .read 1 ⟨true, 5, false⟩,
      .llseek 1 (2 ^ 63 - 1) SEEK_CUR] device = .ok (trace, system) ∧
    0 ≤ (system.file 1).fPos ∧ SeekExact (2 ^ 63 - 1) SEEK_END system.world (system.file 1) := by
  obtain ⟨written, device, trace, system, hWrite, hBuffer, hStored, hRun⟩ :
      ∃ written device trace system,
        run System.exec [.write 0 (wholeWrite [97, newline])] System.initial = .ok (written, device) ∧
        device.world.dev.bufferSize = 2 ∧ device.world.storedSize = 2 ∧
        run System.exec [.openFile 1, .ioctl 1 (seekCall ⟨0, 1⟩ .zero), .read 1 ⟨true, 5, false⟩,
          .llseek 1 (2 ^ 63 - 1) SEEK_CUR] device = .ok (trace, system) :=
    ⟨_, _, _, _, rfl, rfl, rfl, rfl⟩
  obtain ⟨hPosition, hSeek⟩ := positions_exact device 1 [.ioctl 1 (seekCall ⟨0, 1⟩ .zero),
    .read 1 ⟨true, 5, false⟩, .llseek 1 (2 ^ 63 - 1) SEEK_CUR] trace system ⟨_, _, hWrite⟩
    (by simp [hBuffer]) (by simp [hStored]) (by simp [Op.InDomain, seekCall]) (by simp) hRun
  exact ⟨written, device, trace, system, hWrite, hRun, hPosition, hSeek _ _ (by decide) (by decide)⟩

end Aesd
