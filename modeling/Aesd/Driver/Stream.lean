import Aesd.Driver.Refinement

/-! What a reader is given that keeps its file open while others write. Its
position counts from the oldest stored command, so each command that is
displaced moves the file on by as much, whether or not it was read. -/
namespace Aesd
open Kernel Word Memory Execution CommandLog

/-- The bytes of the commands that were displaced. -/
def lostBytes (log : WriteLog) : List Byte :=
  (log.commands.take (log.commands.length - aesdcharMaxWriteOperationsSupported)).flatten

/-- Where in everything that was ever written a file is at this position. -/
def placeOf (log : WriteLog) (position : Nat) : Nat := (lostBytes log).length + position

/-- No operation but a read moves this file. -/
def Op.LeavesOpen (fd : Nat) : Op → Prop
  | .openFile other => other ≠ fd
  | .llseek other _ _ => other ≠ fd
  | .ioctl other _ => other ≠ fd
  | _ => True

/-- What an operation has given to the reader of a file. -/
def givenTo (fd : Nat) (event : Op × Reply) : List Byte :=
  match event.1 with
  | .read other _ => if other = fd then event.2.data else []
  | _ => []

/-- What the reader of a file comes past: what an event gives to it, and then
the bytes past which the event moves its place by displacing commands. -/
def comesPast (fd : Nat) (contents : List Byte) : WriteLog → Nat → List (Op × Reply) → List Byte
  | _, _, [] => []
  | log, position, event :: rest =>
      let after := log.accept (acceptedBytes event)
      let moved := position + (givenTo fd event).length
      givenTo fd event ++ Segments.between contents (placeOf log moved) (placeOf after moved) ++
        comesPast fd contents after moved rest

variable {device next final : LogDevice} {log : WriteLog} {fd position : Nat} {op : Op} {reply : Reply}
  {contents piece : List Byte} {ops : List Op} {trace : List (Op × Reply)}

theorem contents_eq : log.contents = lostBytes log ++ (lastCommands log).flatten ++ log.pending := by
  rw [lostBytes, lastCommands, ← List.flatten_append, List.rtake, List.take_append_drop]
  rfl

/-- What was displaced stays displaced. -/
theorem lostBytes_accept : (lostBytes log).length ≤ (lostBytes (log.accept piece)).length := by
  by_cases hNewline : newline ∈ log.pending ++ piece
  · obtain ⟨more, hMore⟩ := @List.take_prefix_take_left _ (log.commands ++ [log.pending ++ piece])
      (log.commands.length - aesdcharMaxWriteOperationsSupported)
      (log.commands.length + 1 - aesdcharMaxWriteOperationsSupported) (by omega)
    rw [lostBytes, lostBytes, (Log.accept_of_mem hNewline).1, List.length_append, List.length_singleton, ← hMore,
      List.take_append_of_le_length (Nat.sub_le _ _), List.flatten_append, List.length_append]
    exact Nat.le_add_right _ _
  · rw [lostBytes, lostBytes, (Log.accept_of_not_mem hNewline).1]

/-- A piece read at the position is what comes next at the place of the file. -/
theorem between_read (hPiece : piece <+: (lastCommands log).flatten.drop position)
    (hContents : log.contents <+: contents) :
    Segments.between contents (placeOf log position) (placeOf log (position + piece.length)) = piece := by
  have hNext : piece <+: log.contents.drop (placeOf log position) := by
    rw [contents_eq, placeOf, ← List.drop_drop, List.append_assoc, List.drop_left, List.drop_append]
    exact hPiece.trans (List.prefix_append _ _)
  rw [placeOf, placeOf, ← Nat.add_assoc, ← placeOf]
  exact Segments.between_of_prefix (hNext.trans (hContents.drop _))

/-- A file that is left open moves by what its reader is given, and that is
what comes next there. -/
theorem LogDevice.exec_moves (hOp : op.LeavesOpen fd) (hExec : LogDevice.exec op device = .ok (reply, next)) :
    next.position fd = device.position fd + (givenTo fd (op, reply)).length ∧
      givenTo fd (op, reply) <+: (lastCommands device.log).flatten.drop (device.position fd) := by
  have hOther : ∀ {other place : Nat}, other ≠ fd → (device.move other place).position fd = device.position fd :=
    fun hNe => if_neg hNe.symm
  cases op with
  | openFile other =>
      cases hExec
      exact ⟨hOther hOp, List.nil_prefix⟩
  | release other =>
      cases hExec
      exact ⟨rfl, List.nil_prefix⟩
  | read other call =>
      simp only [LogDevice.exec, LogDevice.read] at hExec
      by_cases hFile : other = fd
      · subst hFile
        simp only [givenTo, ↓reduceIte]
        split at hExec
        · cases hExec
          exact ⟨rfl, List.nil_prefix⟩
        · cases hExec
          exact ⟨if_pos rfl, (List.take_prefix _ _).trans Segments.rest_prefix⟩
      · simp only [givenTo, if_neg hFile]
        split at hExec
        · cases hExec
          exact ⟨rfl, List.nil_prefix⟩
        · cases hExec
          exact ⟨hOther hFile, List.nil_prefix⟩
  | llseek other off whence =>
      refine ⟨?_, List.nil_prefix⟩
      simp only [LogDevice.exec, LogDevice.llseek] at hExec
      repeat' split at hExec
      all_goals
        cases hExec
        first | rfl | exact hOther hOp
  | ioctl other call =>
      refine ⟨?_, List.nil_prefix⟩
      simp only [LogDevice.exec, LogDevice.ioctl, LogDevice.seekCommand] at hExec
      repeat' split at hExec
      all_goals
        cases hExec
        try first | rfl | exact hOther hOp
  | write other call =>
      refine ⟨?_, List.nil_prefix⟩
      simp only [LogDevice.exec, LogDevice.write] at hExec
      repeat' split at hExec
      all_goals
        cases hExec
        try rfl

/-- Over a run the file comes past everything between its two places. -/
theorem LogDevice.run_comesPast (hOpen : ∀ op ∈ ops, op.LeavesOpen fd)
    (hRun : run LogDevice.exec ops device = .ok (trace, final)) :
    final.position fd = device.position fd + (trace.map (givenTo fd)).flatten.length ∧
      placeOf device.log (device.position fd) ≤ placeOf final.log (final.position fd) ∧
      comesPast fd final.log.contents device.log (device.position fd) trace =
        Segments.between final.log.contents (placeOf device.log (device.position fd))
          (placeOf final.log (final.position fd)) := by
  induction ops generalizing device trace with
  | nil =>
      cases hRun
      exact ⟨rfl, Nat.le_refl _, Segments.between_self.symm⟩
  | cons op rest ih =>
      obtain ⟨reply, next, tail, hExec, hRest, rfl⟩ := run_cons_ok_iff.mp hRun
      rw [List.forall_mem_cons] at hOpen
      obtain ⟨hMoved, hGiven⟩ := LogDevice.exec_moves hOpen.1 hExec
      obtain ⟨hEnd, hBehind, hPast⟩ := ih hOpen.2 hRest
      have hContents : device.log.contents <+: final.log.contents := by
        rw [LogDevice.run_log hRun, Log.contents_acceptAll]
        exact List.prefix_append _ _
      have hLog := LogDevice.exec_log hExec
      have hRead : placeOf device.log (device.position fd) ≤ placeOf device.log (next.position fd) := by
        rw [hMoved, placeOf, placeOf]
        omega
      have hLost : placeOf device.log (next.position fd) ≤ placeOf next.log (next.position fd) := by
        rw [hLog]
        exact Nat.add_le_add_right lostBytes_accept _
      have hFirst : Segments.between final.log.contents (placeOf device.log (device.position fd))
          (placeOf device.log (next.position fd)) = givenTo fd (op, reply) := by
        rw [hMoved]
        exact between_read hGiven hContents
      refine ⟨?_, hRead.trans (hLost.trans hBehind), ?_⟩
      · rw [hEnd, hMoved, List.map_cons, List.flatten_cons, List.length_append, Nat.add_assoc]
      · rw [comesPast, ← hLog, ← hMoved, hPast, ← hFirst, Segments.between_append hRead hLost,
          Segments.between_append (hRead.trans hLost) hBehind]

theorem given_sublist : (trace.map (givenTo fd)).flatten.Sublist (comesPast fd contents log position trace) := by
  induction trace generalizing log position with
  | nil => exact List.Sublist.refl _
  | cons event rest ih =>
      rw [List.map_cons, List.flatten_cons, comesPast, List.append_assoc]
      exact (List.Sublist.refl _).append (ih.trans (List.sublist_append_right _ _))

/-- A file that is only read from some time on, while anything else happens on
the device, but for seeks to the slot behind the array: what its reader is
given are bytes written, in their order and none of them twice. From the place
where it starts to the one where it is then, the reader misses exactly the
bytes that its place is moved past. -/
theorem reader_follows (before ops : List Op) (fd : Nat) (earlier trace : List (Op × Reply))
    (opened system : System) (hOps : ∀ op ∈ before ++ ops, op.InDomain)
    (hOffered : ((before ++ ops).map Op.offered).sum < 2 ^ 63) (hOpen : ∀ op ∈ ops, op.LeavesOpen fd)
    (hBefore : run System.exec before System.initial = .ok (earlier, opened))
    (hRun : run System.exec ops opened = .ok (trace, system)) :
    ∃ position : Nat, (opened.file fd).fPos = position ∧
      (system.file fd).fPos = position + (trace.map (givenTo fd)).flatten.length ∧
      (trace.map (givenTo fd)).flatten.Sublist
        (Segments.between (logOf (earlier ++ trace)).contents (placeOf (logOf earlier) position)
          (placeOf (logOf (earlier ++ trace)) (system.file fd).fPos.toNat)) ∧
      comesPast fd (logOf (earlier ++ trace)).contents (logOf earlier) position trace =
        Segments.between (logOf (earlier ++ trace)).contents (placeOf (logOf earlier) position)
          (placeOf (logOf (earlier ++ trace)) (system.file fd).fPos.toNat) := by
  have hWhole := run_append_ok_iff.mpr ⟨earlier, opened, trace, hBefore, hRun, rfl⟩
  have hEmpty : LogDevice.initial.log.contents.length = 0 := rfl
  rw [List.map_append, List.sum_append] at hOffered
  have hAgree := run_refines refines_initial hOps (by rw [List.map_append, List.sum_append]; omega)
  have hAgreeBefore := @run_refines _ _ before refines_initial
    (fun op hOp => hOps op (List.mem_append_left _ hOp)) (by omega)
  rw [hWhole] at hAgree
  rw [hBefore] at hAgreeBefore
  generalize hLogRun : run LogDevice.exec (before ++ ops) LogDevice.initial = result at hAgree
  generalize hLogBefore : run LogDevice.exec before LogDevice.initial = result' at hAgreeBefore
  cases hAgree with
  | @answered _ _ device hDevice =>
  cases hAgreeBefore with
  | @answered _ _ middle hMiddle =>
  obtain ⟨_, _, after, hFirst, hLater, hSplit⟩ := run_append_ok_iff.mp hLogRun
  rw [hLogBefore] at hFirst
  cases hFirst
  obtain rfl := List.append_cancel_left hSplit
  obtain ⟨hMoved, _, hPast⟩ := LogDevice.run_comesPast hOpen hLater
  have hLog : device.log = logOf (earlier ++ trace) := LogDevice.run_log hLogRun
  have hLogMiddle : middle.log = logOf earlier := LogDevice.run_log hLogBefore
  rw [hLog, hLogMiddle] at hPast
  rw [hDevice.position fd, Int.toNat_natCast]
  refine ⟨middle.position fd, hMiddle.position fd, ?_, ?_, hPast⟩
  · rw [hMoved, Int.natCast_add]
  · rw [← hPast]
    exact given_sublist

/-- A reader that has the first line when it is displaced misses the second. -/
theorem reader_follows_displaced : ∃ earlier trace opened system,
    run System.exec (lineWrites 10) System.initial = .ok (earlier, opened) ∧
    run System.exec [.read 1 ⟨true, 9, false⟩, .write 0 (wholeWrite [107, newline]), .read 1 ⟨true, 9, false⟩]
      opened = .ok (trace, system) ∧
    (trace.map (givenTo 1)).flatten = [97, newline, 99, newline] ∧
    (system.file 1).fPos = 4 ∧
    Segments.between (logOf (earlier ++ trace)).contents 0 6 = [97, newline, 98, newline, 99, newline] ∧
    comesPast 1 (logOf (earlier ++ trace)).contents (logOf earlier) 0 trace =
      Segments.between (logOf (earlier ++ trace)).contents 0 6 := by
  obtain ⟨earlier, trace, opened, system, hBefore, hRun, hGiven, hStart, hFirst, hLast, hBytes⟩ :
      ∃ earlier trace opened system,
      run System.exec (lineWrites 10) System.initial = .ok (earlier, opened) ∧
      run System.exec [.read 1 ⟨true, 9, false⟩, .write 0 (wholeWrite [107, newline]),
        .read 1 ⟨true, 9, false⟩] opened = .ok (trace, system) ∧
      (trace.map (givenTo 1)).flatten = [97, newline, 99, newline] ∧ (opened.file 1).fPos = 0 ∧
      (lostBytes (logOf earlier)).length = 0 ∧ (lostBytes (logOf (earlier ++ trace))).length = 2 ∧
      Segments.between (logOf (earlier ++ trace)).contents 0 6 = [97, newline, 98, newline, 99, newline] :=
    ⟨_, _, _, _, rfl, rfl, rfl, rfl, rfl, rfl, rfl⟩
  have hWrites : ∀ op ∈ lineWrites 10, op.InDomain := by
    intro op hOp
    obtain ⟨number, _, rfl⟩ := List.mem_map.mp hOp
    exact trivial
  obtain ⟨position, hPosition, hMoved, _, hPast⟩ := reader_follows (lineWrites 10) _ 1 earlier trace opened system
    (List.forall_mem_append.mpr ⟨hWrites, by simp [Op.InDomain]⟩) (by decide) (by simp [Op.LeavesOpen])
    hBefore hRun
  obtain rfl : position = 0 := by omega
  have hEnd : (system.file 1).fPos = 4 := by
    rw [hMoved, hGiven]
    rfl
  refine ⟨earlier, trace, opened, system, hBefore, hRun, hGiven, hEnd, hBytes, ?_⟩
  rw [hPast, placeOf, placeOf, hFirst, hLast, hEnd]
  rfl

end Aesd
