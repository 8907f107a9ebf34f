import Aesd.Driver.ReadBack
import Aesd.Driver.Turns

/-! Reads take no lock. What one sees that comes between two statements of
the writers: the commands before the write that has the lock, these without
the oldest, or those after it. -/
namespace Aesd
open Kernel Word Memory Execution CommandLog

/-- What a read answers where these commands are stored. -/
def readAnswer (call : ReadCall) (contents : List (List Byte)) (filp : File) : Int × List Byte × File :=
  let position := unsigned64 filp.fPos
  let given := (Segments.rest contents position).take call.count
  if call.hasBuf = false ∨ call.copyFails = true ∧ given ≠ [] then (-EFAULT, [], filp)
  else if contents.flatten.length ≤ position then (0, [], filp)
  else (given.length, given, ⟨signed64 (filp.fPos + given.length)⟩)

/-- What the slots hold that the lookup walks over, empty ones included. -/
structure Walk (world : World) (pieces : List (List Byte)) : Prop where
  some : 0 < pieces.length
  few : pieces.length ≤ aesdcharMaxWriteOperationsSupported
  outOffs : world.dev.aesdCb.outOffs < aesdcharMaxWriteOperationsSupported
  inOffs : world.dev.aesdCb.inOffs =
    (world.dev.aesdCb.outOffs + pieces.length) % aesdcharMaxWriteOperationsSupported
  slots : ∀ step (h : step < pieces.length), (world.dev.aesdCb.slot
    ((world.dev.aesdCb.outOffs + step) % aesdcharMaxWriteOperationsSupported)).bytes world.heap = .ok pieces[step]

/-- What can be read of a device: what its walk meets that is not empty. -/
def Sees (world : World) (contents : List (List Byte)) : Prop :=
  ∃ pieces, Walk world pieces ∧ pieces.filter (· ≠ []) = contents

variable {calls : Nat → WriteCall} {writeCall : WriteCall} {log : WriteLog} {world base freed : World}
  {filp : File} {call : ReadCall} {pieces contents commands : List (List Byte)} {index offset : Nat}
  {point : WriteAt} {order : List Nat} {state : Writers}
  {change : AesdCircularBuffer → AesdBufferEntry → AesdCircularBuffer}

theorem Walk.sizes (h : Walk world pieces) :
    (Ring.window aesdcharMaxWriteOperationsSupported world.dev.aesdCb.slot world.dev.aesdCb.outOffs
      pieces.length).map AesdBufferEntry.size = pieces.map List.length := by
  apply List.ext_getElem
  · simp
  · intro step hWindow hPieces
    rw [List.length_map] at hPieces
    simp only [List.getElem_map, Ring.window_getElem]
    exact (Kernel.length_of_load (h.slots step hPieces)).symm

/-- A read is determined by what is left of a command at its position. Of
the slots it only reads the one that its position falls in. -/
theorem read_of_located (hOut : world.dev.aesdCb.outOffs < aesdcharMaxWriteOperationsSupported)
    (hSome : 0 < pieces.length) (hFew : pieces.length ≤ aesdcharMaxWriteOperationsSupported)
    (hIn : world.dev.aesdCb.inOffs =
      (world.dev.aesdCb.outOffs + pieces.length) % aesdcharMaxWriteOperationsSupported)
    (hSizes : (Ring.window aesdcharMaxWriteOperationsSupported world.dev.aesdCb.slot world.dev.aesdCb.outOffs
      pieces.length).map AesdBufferEntry.size = pieces.map List.length)
    (hSlot : ∀ index (h : index < pieces.length) offset,
      Segments.locate (pieces.map List.length) (unsigned64 filp.fPos) = some (index, offset) →
        (world.dev.aesdCb.slot ((world.dev.aesdCb.outOffs + index) %
          aesdcharMaxWriteOperationsSupported)).bytes world.heap = .ok pieces[index])
    (hSize : pieces.flatten.length < 2 ^ 64) (call : ReadCall) :
    aesdRead call world filp = .ok (readAnswer call pieces filp) := by
  cases hBuf : call.hasBuf with
  | false => simp [aesdRead, readAnswer, hBuf]
  | true =>
      have hFind := find_walk hOut hSome hFew hIn (unsigned64_lt filp.fPos)
        (by rw [hSizes, Segments.sum_map_length]; exact hSize)
      rw [hSizes] at hFind
      cases hLocate : Segments.locate (pieces.map List.length) (unsigned64 filp.fPos) with
      | none =>
          rw [hLocate] at hFind
          rw [Segments.locate_eq_none_iff, Segments.sum_map_length] at hLocate
          have hAnswer : readAnswer call pieces filp = (0, [], filp) := by
            simp only [readAnswer, hBuf, Segments.rest_of_end hLocate, List.take_nil, Bool.true_eq_false, ne_eq,
              not_true_eq_false, and_false, or_self, ↓reduceIte, if_pos hLocate]
          rw [hAnswer]
          simp [aesdRead, hBuf, hFind, bind, Except.bind, pure, Except.pure]
      | some found =>
          obtain ⟨index, offset⟩ := found
          rw [hLocate] at hFind
          obtain ⟨hIndex, hRest⟩ := Segments.rest_of_locate hLocate
          obtain ⟨_, hOffset, _⟩ := Segments.drop_flatten_of_locate hLocate
          have hInside := Segments.lt_sum_of_locate hLocate
          rw [Segments.sum_map_length] at hInside
          have hShort := (List.sublist_flatten_of_mem (List.getElem_mem hIndex)).length_le
          rw [aesdRead_of_found hBuf hFind (hSlot index hIndex offset hLocate) (Nat.le_of_lt hOffset) (by omega)]
          simp only [readAnswer, hRest, hBuf, Bool.true_eq_false, false_or, List.length_pos_iff]
          split
          · rfl
          · rw [if_neg (by omega)]

theorem Walk.read (h : Walk world pieces) (hSize : pieces.flatten.length < 2 ^ 64) (call : ReadCall) (filp : File) :
    aesdRead call world filp = .ok (readAnswer call pieces filp) :=
  read_of_located h.outOffs h.some h.few h.inOffs h.sizes (fun index hIndex _ _ => h.slots index hIndex) hSize call

theorem readAnswer_filter : readAnswer call (pieces.filter (· ≠ [])) filp = readAnswer call pieces filp := by
  rw [readAnswer, readAnswer, Segments.rest_filter, List.flatten_filter_ne_nil]

theorem Sees.read (h : Sees world contents) (hSize : contents.flatten.length < 2 ^ 64) (call : ReadCall)
    (filp : File) : aesdRead call world filp = .ok (readAnswer call contents filp) := by
  obtain ⟨pieces, hWalk, rfl⟩ := h
  rw [readAnswer_filter]
  rw [List.flatten_filter_ne_nil] at hSize
  exact hWalk.read hSize call filp

theorem Walk.sees (h : Walk world pieces) (hFull : ∀ piece ∈ pieces, piece ≠ []) : Sees world pieces :=
  ⟨pieces, h, List.filter_eq_self.mpr fun piece hPiece => decide_eq_true (hFull piece hPiece)⟩

/-- Slots that are all empty show nothing. -/
theorem sees_nil (hOut : world.dev.aesdCb.outOffs < aesdcharMaxWriteOperationsSupported)
    (hIn : world.dev.aesdCb.inOffs = world.dev.aesdCb.outOffs)
    (hVacant : ∀ index, (world.dev.aesdCb.slot index).size = 0) : Sees world [] := by
  refine ⟨List.replicate aesdcharMaxWriteOperationsSupported [], ⟨by simp, by simp, hOut, ?_, ?_⟩, by simp⟩
  · rw [List.length_replicate, Nat.add_mod_right, Nat.mod_eq_of_lt hOut, hIn]
  · intro step hStep
    rw [AesdBufferEntry.bytes, hVacant, load_zero]
    simp

theorem RingHolds.walk (h : RingHolds world commands) (hSome : 0 < commands.length) :
    Walk world (commands.rtake aesdcharMaxWriteOperationsSupported) where
  some := by
    rw [Ring.rtake_length]
    exact Nat.lt_min.mpr ⟨hSome, by decide⟩
  few := by
    rw [Ring.rtake_length]
    exact Nat.min_le_right _ _
  outOffs := h.counted.outOffs_lt
  inOffs := by
    rw [Ring.rtake_length, h.counted.outOffs, h.counted.inOffs]
    simp only [aesdcharMaxWriteOperationsSupported]
    omega
  slots := fun _ hStep => h.entry_bytes hStep

/-- A device that is a log shows its last commands. -/
theorem RingHolds.sees (h : RingHolds world commands) :
    Sees world (commands.rtake aesdcharMaxWriteOperationsSupported) := by
  rcases Nat.eq_zero_or_pos commands.length with hEmpty | hSome
  · obtain rfl : commands = [] := List.length_eq_zero_iff.mp hEmpty
    refine sees_nil h.counted.outOffs_lt (by rw [h.counted.outOffs, h.counted.inOffs]; rfl) ?_
    intro index
    rw [h.vacant (Or.inr (Nat.zero_le index))]
    rfl
  · exact (h.walk hSome).sees fun piece hPiece => h.nonempty piece (List.mem_of_mem_drop hPiece)

/-- The full flag does not matter to a read. -/
theorem Sees.congr {other : World} (h : Sees other contents) (hHeap : world.heap = other.heap)
    (hEntry : world.dev.aesdCb.entry = other.dev.aesdCb.entry)
    (hOut : world.dev.aesdCb.outOffs = other.dev.aesdCb.outOffs)
    (hIn : world.dev.aesdCb.inOffs = other.dev.aesdCb.inOffs) : Sees world contents := by
  obtain ⟨pieces, hWalk, hPieces⟩ := h
  refine ⟨pieces, ⟨hWalk.some, hWalk.few, hOut ▸ hWalk.outOffs, by rw [hIn, hOut, hWalk.inOffs], ?_⟩, hPieces⟩
  intro step hStep
  rw [← hWalk.slots step hStep, hOut, hHeap, AesdCircularBuffer.slot, AesdCircularBuffer.slot, hEntry]

/-- What is in the slots while an entry is added: the commands that stay, and
nothing in the slot of the new one. -/
structure Roomy (world : World) (commands : List (List Byte)) : Prop where
  counted : Counted world.dev.aesdCb commands.length
  staying : ∀ number (h : number < commands.length), commands.length < number + aesdcharMaxWriteOperationsSupported →
    (world.dev.aesdCb.slot (number % aesdcharMaxWriteOperationsSupported)).bytes world.heap = .ok commands[number]
  vacant : (world.dev.aesdCb.slot (commands.length % aesdcharMaxWriteOperationsSupported)).size = 0
  nonempty : ∀ command ∈ commands, command ≠ []

theorem RingHolds.roomy (h : RingHolds base commands) (hRoom : freeOldest base = .ok freed) :
    Roomy freed commands := by
  obtain ⟨heap, aesdCb, hFree, hCounted, hSame, hBlock⟩ := freeOldest_spec h
  have hVacant : (freed.dev.aesdCb.slot (commands.length % aesdcharMaxWriteOperationsSupported)).size = 0 := by
    cases hFull : base.dev.aesdCb.full with
    | true =>
        have hFreed := hRoom
        rw [freeOldest_of_full hFull] at hFreed
        obtain ⟨heap, _, hFreed⟩ := bind_ok_iff.mp hFreed
        cases hFreed
        simp only [World.withCb]
        rw [AesdCircularBuffer.slot_setSlot h.counted.inOffs_lt, if_pos h.counted.inOffs.symm]
    | false =>
        simp only [freeOldest, hFull, Bool.false_eq_true, ↓reduceIte, Except.ok.injEq] at hRoom
        have hCount : ¬ aesdcharMaxWriteOperationsSupported ≤ commands.length := by
          rw [← h.counted.full_iff, hFull]
          simp
        rw [← hRoom, h.vacant (Or.inr (Nat.le_of_eq (Nat.mod_eq_of_lt (Nat.lt_of_not_le hCount)).symm))]
        rfl
  cases hFree.symm.trans hRoom
  refine ⟨hCounted, ?_, hVacant, h.nonempty⟩
  intro number hNumber hNear
  have hOther : number % aesdcharMaxWriteOperationsSupported ≠
      commands.length % aesdcharMaxWriteOperationsSupported := Ring.mod_ne_of_lt hNumber hNear
  have hBytes := h.held number (by simpa using hNumber) (by simpa using Nat.le_of_lt hNear)
  rw [List.getElem_map] at hBytes
  rw [← hBytes, hSame _ hOther]
  refine load_congr fun id hPtr => ?_
  rw [hBlock, if_neg]
  exact fun hOldest => hOther (h.separate _ _ id hPtr hOldest)

/-- Once the start of the ring has moved on, and until its end does, the
commands that stay are what is seen. -/
theorem Roomy.sees_staying (h : Roomy freed commands) (hSome : 0 < commands.length)
    (hHeap : world.heap = freed.heap)
    (hSlots : ∀ index, index ≠ commands.length % aesdcharMaxWriteOperationsSupported →
      world.dev.aesdCb.slot index = freed.dev.aesdCb.slot index)
    (hOut : world.dev.aesdCb.outOffs = (commands.length - 9) % aesdcharMaxWriteOperationsSupported)
    (hIn : world.dev.aesdCb.inOffs = commands.length % aesdcharMaxWriteOperationsSupported) :
    Sees world (commands.rtake 9) := by
  refine Walk.sees ⟨?_, ?_, ?_, ?_, ?_⟩ fun piece hPiece => h.nonempty piece (List.mem_of_mem_drop hPiece)
  · rw [Ring.rtake_length]
    omega
  · rw [Ring.rtake_length]
    exact (Nat.min_le_right _ 9).trans (by decide)
  · rw [hOut]
    exact Nat.mod_lt _ (by decide)
  · rw [Ring.rtake_length, hOut, hIn]
    simp only [aesdcharMaxWriteOperationsSupported]
    omega
  · intro step hStep
    rw [Ring.rtake_length] at hStep
    have hOther : (commands.length - 9 + step) % aesdcharMaxWriteOperationsSupported ≠
        commands.length % aesdcharMaxWriteOperationsSupported :=
      Ring.mod_ne_of_lt (by omega) (by simp only [aesdcharMaxWriteOperationsSupported]; omega)
    rw [hOut, Nat.mod_add_mod, hSlots _ hOther, hHeap,
      h.staying _ (by omega) (by simp only [aesdcharMaxWriteOperationsSupported]; omega)]
    simp [List.rtake]

/-- Before that, a full ring starts with the slot that was emptied. -/
theorem Roomy.sees_emptied (h : Roomy freed commands)
    (hFull : aesdcharMaxWriteOperationsSupported ≤ commands.length) : Sees freed (commands.rtake 9) := by
  have hOut : freed.dev.aesdCb.outOffs = commands.length % aesdcharMaxWriteOperationsSupported := by
    rw [h.counted.outOffs]
    simp only [aesdcharMaxWriteOperationsSupported] at hFull ⊢
    omega
  refine ⟨[] :: commands.rtake 9, ⟨?_, ?_, h.counted.outOffs_lt, ?_, ?_⟩, ?_⟩
  · simp
  · rw [List.length_cons, Ring.rtake_length]
    simp only [aesdcharMaxWriteOperationsSupported]
    omega
  · rw [List.length_cons, Ring.rtake_length, hOut, h.counted.inOffs]
    simp only [aesdcharMaxWriteOperationsSupported] at hFull ⊢
    omega
  · intro step hStep
    rw [List.length_cons, Ring.rtake_length] at hStep
    rw [hOut, Nat.mod_add_mod]
    cases step with
    | zero =>
        rw [Nat.add_zero, AesdBufferEntry.bytes, h.vacant, load_zero]
        rfl
    | succ step =>
        have hNumber : (commands.length + (step + 1)) % aesdcharMaxWriteOperationsSupported =
            (commands.length - 9 + step) % aesdcharMaxWriteOperationsSupported := by
          simp only [aesdcharMaxWriteOperationsSupported] at hFull ⊢
          omega
        simp only [aesdcharMaxWriteOperationsSupported] at hFull
        rw [hNumber, h.staying _ (by omega) (by simp only [aesdcharMaxWriteOperationsSupported]; omega)]
        simp [List.rtake]
  · rw [List.filter_cons_of_neg (by simp)]
    exact List.filter_eq_self.mpr fun command hCommand =>
      decide_eq_true (h.nonempty command (List.mem_of_mem_drop hCommand))

theorem Roomy.sees_start (h : Roomy freed []) : Sees freed [] := by
  refine sees_nil h.counted.outOffs_lt (by rw [h.counted.outOffs, h.counted.inOffs]; rfl) ?_
  intro index
  by_cases hIndex : index < aesdcharMaxWriteOperationsSupported
  · rw [h.counted.vacant index (Nat.zero_le _) hIndex]
    rfl
  · simp [AesdCircularBuffer.slot, Nat.le_of_not_lt hIndex, AesdBufferEntry.zero]

/-- With room made, and nothing else yet, the commands that stay are seen. -/
theorem Roomy.sees (h : Roomy freed commands) : Sees freed (commands.rtake 9) := by
  rcases Nat.eq_zero_or_pos commands.length with hEmpty | hSome
  · obtain rfl : commands = [] := List.length_eq_zero_iff.mp hEmpty
    exact h.sees_start
  · rcases Nat.lt_or_ge commands.length aesdcharMaxWriteOperationsSupported with hSpace | hFull
    · refine h.sees_staying hSome rfl (fun _ _ => rfl) ?_ h.counted.inOffs
      rw [h.counted.outOffs]
      simp only [aesdcharMaxWriteOperationsSupported] at hSpace ⊢
      omega
    · exact h.sees_emptied hFull

theorem Counted.outMoved {buffer : AesdCircularBuffer} {count : Nat} (h : Counted buffer count) :
    buffer.outMoved.outOffs = (count - 9) % aesdcharMaxWriteOperationsSupported := by
  have hOut := h.outOffs
  have hLess := h.outOffs_lt
  simp only [AesdCircularBuffer.outMoved]
  split
  · next hFull =>
    have hCount := h.full_iff.mp hFull
    rw [nextOffs_eq hLess, hOut]
    simp only [aesdcharMaxWriteOperationsSupported] at hCount ⊢
    omega
  · next hSpace =>
    have hCount := mt h.full_iff.mpr hSpace
    rw [hOut]
    simp only [aesdcharMaxWriteOperationsSupported] at hCount ⊢
    omega

namespace Adding

theorem roomy (h : Adding writeCall log world change base freed) : Roomy freed log.commands :=
  h.complete.ring.roomy h.room

theorem lastCommands_eq (h : Adding writeCall log world change base freed) :
    lastCommands (log.accept writeCall.accepted) =
      (log.commands ++ [log.pending ++ writeCall.accepted]).rtake aesdcharMaxWriteOperationsSupported := by
  rw [lastCommands, (Log.accept_of_mem h.complete.newline).1]

theorem sees_room (h : Adding writeCall log world (fun buffer _ => buffer) base freed) :
    Sees world (log.commands.rtake 9) := by
  have hCb := h.aesdCb
  exact h.roomy.sees.congr h.same.heap (by rw [hCb]) (by rw [hCb]) (by rw [hCb])

/-- The start moved on, whether or not it went round the ring. -/
theorem sees_out (h : Adding writeCall log world change base freed)
    (hEntry : world.dev.aesdCb.entry = freed.dev.aesdCb.entry)
    (hOut : world.dev.aesdCb.outOffs = freed.dev.aesdCb.outMoved.outOffs)
    (hIn : world.dev.aesdCb.inOffs = freed.dev.aesdCb.inOffs) : Sees world (log.commands.rtake 9) := by
  have hRoomy := h.roomy
  rw [hRoomy.counted.outMoved] at hOut
  rcases Nat.eq_zero_or_pos log.commands.length with hEmpty | hSome
  · refine hRoomy.sees.congr h.same.heap hEntry ?_ hIn
    rw [hOut, hRoomy.counted.outOffs, hEmpty, Nat.zero_sub, Nat.zero_sub]
  · refine hRoomy.sees_staying hSome h.same.heap ?_ hOut (hIn.trans hRoomy.counted.inOffs)
    intro index _
    rw [AesdCircularBuffer.slot, AesdCircularBuffer.slot, hEntry]

/-- The entry is in its slot. Only the very first one is seen already. -/
theorem sees_stored (h : Adding writeCall log world AesdCircularBuffer.entryStored base freed) :
    Sees world (log.commands.rtake 9) ∨ Sees world (lastCommands (log.accept writeCall.accepted)) := by
  have hRoomy := h.roomy
  have hCb := h.aesdCb
  have hIn : world.dev.aesdCb.inOffs = freed.dev.aesdCb.inOffs := by rw [hCb]; rfl
  have hOut : world.dev.aesdCb.outOffs = freed.dev.aesdCb.outMoved.outOffs := by rw [hCb]; rfl
  have hSlot : ∀ index, world.dev.aesdCb.slot index =
      if index = freed.dev.aesdCb.inOffs then ⟨freed.dev.tmpBuf, freed.dev.tmpSize⟩
      else freed.dev.aesdCb.slot index := by
    intro index
    rw [hCb]
    exact AesdCircularBuffer.slot_setSlot hRoomy.counted.inOffs_lt index
  rw [hRoomy.counted.outMoved] at hOut
  rw [hRoomy.counted.inOffs] at hIn hSlot
  rcases Nat.eq_zero_or_pos log.commands.length with hEmpty | hSome
  · right
    have hNone : log.commands = [] := List.length_eq_zero_iff.mp hEmpty
    have hHeld := h.added.held
    rw [hNone] at hHeld hRoomy
    rw [hEmpty] at hOut hIn hSlot
    have hFirst : (world.dev.aesdCb.slot 0).bytes world.heap = .ok (log.pending ++ writeCall.accepted) := by
      rw [hCb, h.same.heap]
      exact hHeld 0 (by simp) (by simp [aesdcharMaxWriteOperationsSupported])
    have hOthers : ∀ index, index ≠ 0 → (world.dev.aesdCb.slot index).bytes world.heap = .ok [] := by
      intro index hIndex
      rw [hSlot, if_neg (by simpa using hIndex)]
      by_cases hBound : index < aesdcharMaxWriteOperationsSupported
      · rw [hRoomy.counted.vacant index (Nat.zero_le _) hBound, AesdBufferEntry.bytes, AesdBufferEntry.zero, load_zero]
      · simp [AesdCircularBuffer.slot, Nat.le_of_not_lt hBound, AesdBufferEntry.zero, AesdBufferEntry.bytes]
    refine ⟨(log.pending ++ writeCall.accepted) :: List.replicate 9 [], ⟨by simp, by simp, by rw [hOut]; decide, ?_,
      ?_⟩, ?_⟩
    · rw [hIn, hOut]
      simp
    · intro step hStep
      rw [hOut]
      cases step with
      | zero => exact hFirst
      | succ step =>
          have hBound : step < 9 := by
            rw [List.length_cons, List.length_replicate] at hStep
            omega
          simp only [List.getElem_cons_succ, List.getElem_replicate]
          exact hOthers _ (by simp only [aesdcharMaxWriteOperationsSupported]; omega)
    · have hSome : log.pending ++ writeCall.accepted ≠ [] := List.ne_nil_of_mem h.complete.newline
      rw [h.lastCommands_eq, hNone, List.filter_cons, if_pos (decide_eq_true hSome)]
      rfl
  · left
    refine hRoomy.sees_staying hSome h.same.heap ?_ hOut hIn
    intro index hIndex
    rw [hSlot, if_neg hIndex]

/-- With both offsets moved on, the new entry is the last of those seen. -/
theorem sees_added (h : Adding writeCall log world change base freed)
    (hEntry : world.dev.aesdCb.entry =
      (freed.dev.aesdCb.entryStored ⟨freed.dev.tmpBuf, freed.dev.tmpSize⟩).entry)
    (hOut : world.dev.aesdCb.outOffs = freed.dev.aesdCb.outMoved.outOffs)
    (hIn : world.dev.aesdCb.inOffs = nextOffs freed.dev.aesdCb.inOffs) :
    Sees world (lastCommands (log.accept writeCall.accepted)) := by
  rw [h.lastCommands_eq]
  exact h.added.sees.congr h.same.heap hEntry hOut hIn

end Adding

/-- What a read can see: the commands of before, these without the oldest, or
the commands of after. -/
def Between (before after : WriteLog) (contents : List (List Byte)) : Prop :=
  contents = lastCommands before ∨ contents = (lastCommands before).tail ∨ contents = lastCommands after

theorem between_staying {after : WriteLog} : Between log after (log.commands.rtake 9) := by
  simp only [Between, lastCommands, List.rtake, List.tail_drop]
  rcases Nat.lt_or_ge log.commands.length aesdcharMaxWriteOperationsSupported with hSpace | hFull
  · left
    congr 1
    simp only [aesdcharMaxWriteOperationsSupported] at hSpace ⊢
    omega
  · right; left
    congr 1
    simp only [aesdcharMaxWriteOperationsSupported] at hFull ⊢
    omega

/-- The holder of the lock leaves the device readable, but for the moment
after it has freed the oldest command, and as long as the offsets are inside
the array. -/
theorem InWrite.sees (h : InWrite writeCall log world point) (hPoint : ∀ retval, point ≠ .emptying retval)
    (hOut : world.dev.aesdCb.outOffs < aesdcharMaxWriteOperationsSupported)
    (hIn : world.dev.aesdCb.inOffs < aesdcharMaxWriteOperationsSupported) :
    ∃ contents, Between log (log.accept writeCall.accepted) contents ∧ Sees world contents := by
  cases h with
  | filling h => exact ⟨_, Or.inl rfl, h.ring.sees⟩
  | searching hRing hTmp hFunded => exact ⟨_, Or.inl rfl, hRing.sees⟩
  | freeing h hFull => exact ⟨_, Or.inl rfl, h.ring.sees⟩
  | emptying base h hFull hHeap hSame => exact absurd rfl (hPoint _)
  | addingEntry base freed h => exact ⟨_, between_staying, h.sees_room⟩
  | wrappingOut base freed h hFull =>
      have hCb := h.aesdCb
      refine ⟨_, between_staying, h.sees_out (by rw [hCb]; rfl) ?_ (by rw [hCb]; rfl)⟩
      have hMoved : world.dev.aesdCb.outOffs = (freed.dev.aesdCb.outOffs + 1) % 256 := by rw [hCb]; rfl
      rw [hMoved] at hOut ⊢
      simp only [AesdCircularBuffer.outMoved, hFull, ↓reduceIte, nextOffs, if_neg (Nat.ne_of_lt hOut)]
  | storing base freed h =>
      have hCb := h.aesdCb
      exact ⟨_, between_staying, h.sees_out (by rw [hCb]; rfl) (by rw [hCb]) (by rw [hCb]; rfl)⟩
  | advancingIn base freed h =>
      rcases h.sees_stored with hStaying | hAdded
      · exact ⟨_, between_staying, hStaying⟩
      · exact ⟨_, Or.inr (Or.inr rfl), hAdded⟩
  | wrappingIn base freed h =>
      have hCb := h.aesdCb
      refine ⟨_, Or.inr (Or.inr rfl), h.sees_added (by rw [hCb]; rfl) (by rw [hCb]; rfl) ?_⟩
      have hMoved : world.dev.aesdCb.inOffs = (freed.dev.aesdCb.inOffs + 1) % 256 := by rw [hCb]; rfl
      rw [hMoved] at hIn ⊢
      simp only [nextOffs, if_neg (Nat.ne_of_lt hIn)]
  | flagging base freed h =>
      have hCb := h.aesdCb
      exact ⟨_, Or.inr (Or.inr rfl), h.sees_added (by rw [hCb]; rfl) (by rw [hCb]; rfl) (by rw [hCb]; rfl)⟩
  | clearing base freed h =>
      have hCb := h.aesdCb
      exact ⟨_, Or.inr (Or.inr rfl), h.sees_added (by rw [hCb]; rfl) (by rw [hCb]; rfl) (by rw [hCb]; rfl)⟩
  | unlocking h hFunded => exact ⟨_, Or.inr (Or.inr rfl), h.ring.sees⟩

/-- What a read sees between two statements of the writers, whichever of
them have come so far. -/
theorem Turns.sees (h : Turns calls order state) (hPoint : ∀ process retval, state.point process ≠ .emptying retval)
    (hOut : state.world.dev.aesdCb.outOffs < aesdcharMaxWriteOperationsSupported)
    (hIn : state.world.dev.aesdCb.inOffs < aesdcharMaxWriteOperationsSupported) :
    ∃ contents, Between (writtenLog calls order.dropLast) (writtenLog calls order) contents ∧
      Sees state.world contents := by
  cases h.guarded with
  | free final hTaken hFinal hFinalLock hRests hFree hNobody => exact ⟨_, Or.inr (Or.inr rfl), hRests.ring.sees⟩
  | held before process hOrder final hTaken hFinal hFinalLock hInside hLock hOthers =>
      rw [hOrder, List.dropLast_concat, writtenLog_concat]
      exact hInside.sees (hPoint process) hOut hIn
  | kept final hTaken hAlike hRing hRefused hLock hNobody => exact ⟨_, Or.inl rfl, hRing.sees⟩

/-- At whatever point of whatever interleaving of writes a read comes, it
answers from the stored commands as they were before the write that has the
lock, as they will be after it, or from those that stay between the two; but
for the moments in which an offset is behind the end of the array or the
oldest command is freed and not yet empty. No sum of their sizes wraps. -/
theorem lock_free_read (calls : Nat → WriteCall) (processes : List Nat) (trace : List (Nat × WriteAt))
    (state : Writers) (hRun : run (writers calls) processes Writers.initial = .ok (trace, state))
    (hPoint : ∀ process ∈ turnOrder trace, ∀ retval, state.point process ≠ .emptying retval)
    (hOut : state.world.dev.aesdCb.outOffs < aesdcharMaxWriteOperationsSupported)
    (hIn : state.world.dev.aesdCb.inOffs < aesdcharMaxWriteOperationsSupported)
    (hSize : ∀ contents, Between (writtenLog calls (turnOrder trace).dropLast) (writtenLog calls (turnOrder trace))
      contents → contents.flatten.length < 2 ^ 64) :
    ∃ contents, Between (writtenLog calls (turnOrder trace).dropLast) (writtenLog calls (turnOrder trace)) contents ∧
      ∀ call filp, aesdRead call state.world filp = .ok (readAnswer call contents filp) := by
  have h := run_turns hRun
  obtain ⟨contents, hBetween, hSees⟩ := h.sees (fun process retval hEmptying =>
    hPoint process (h.mem_of_point (by simp [hEmptying]) (by simp [hEmptying])) retval hEmptying) hOut hIn
  exact ⟨contents, hBetween, hSees.read (hSize contents hBetween)⟩

/-- A read while the second line is in its slot, and not yet in the ring. -/
theorem lock_free_read_midway : ∃ trace state,
    run (writers twoWrites) (List.replicate 10 0 ++ List.replicate 5 1) Writers.initial = .ok (trace, state) ∧
      ∃ contents, Between (writtenLog twoWrites [0]) (writtenLog twoWrites [0, 1]) contents ∧
        aesdRead ⟨true, 8, false⟩ state.world ⟨0⟩ = .ok (readAnswer ⟨true, 8, false⟩ contents ⟨0⟩) := by
  obtain ⟨trace, state, hRun, hOrder, hFirst, hSecond, hOut, hIn⟩ : ∃ trace state,
      run (writers twoWrites) (List.replicate 10 0 ++ List.replicate 5 1) Writers.initial = .ok (trace, state) ∧
        turnOrder trace = [0, 1] ∧ state.point 0 = .counting 2 ∧ state.point 1 = .advancingIn 2 ∧
        state.world.dev.aesdCb.outOffs = 0 ∧ state.world.dev.aesdCb.inOffs = 1 :=
    ⟨_, _, rfl, rfl, rfl, rfl, rfl, rfl⟩
  have hRead := lock_free_read twoWrites _ trace state hRun
  rw [hOrder, hOut, hIn] at hRead
  obtain ⟨contents, hBetween, hAnswer⟩ := hRead (by simp [hFirst, hSecond]) (by decide) (by decide) (by
    rintro contents (rfl | rfl | rfl)
    all_goals decide)
  exact ⟨trace, state, hRun, contents, hBetween, hAnswer _ _⟩

/-- The bytes of the oldest command are gone, its size is not. -/
theorem freeDisplaced_spec {heap : Memory.Heap Byte} (h : RingHolds base commands) (hFull : base.dev.aesdCb.full = true)
    (hHeap : freeDisplaced base = .ok heap) :
    ∃ id, (base.dev.aesdCb.slot base.dev.aesdCb.outOffs).buffptr = .block id ∧ heap.block id = none ∧
      ∀ other, other ≠ id → heap.block other = base.heap.block other := by
  have hCount := h.counted.full_iff.mp hFull
  obtain ⟨command, _, id, hSlot, hLoad⟩ := h.occupied h.counted.inOffs_lt (h.counted.inOffs_lt.trans_le hCount)
  have hFree : kfree (.block id) base.heap = .ok (base.heap.free id) := kfree_live (Heap.live_of_load hLoad)
  simp only [freeDisplaced, hSlot, ne_eq, reduceCtorEq, not_false_eq_true, ↓reduceIte, hFree, Except.ok.injEq]
    at hHeap
  rw [← h.counted.inOffs_eq_outOffs hFull, hSlot, ← hHeap]
  exact ⟨id, rfl, by simp [Heap.free], fun other hOther => Heap.free_block_of_ne hOther⟩

/-- A read that comes right after the oldest command was freed, and before
its size is zero, reads freed memory exactly when its position is in that
command; any other position is read as before. -/
theorem InWrite.read_emptying {retval : Nat} (h : InWrite writeCall log world (.emptying retval))
    (hSize : (lastCommands log).flatten.length < 2 ^ 64) (hBuf : call.hasBuf = true) (hCount : 0 < call.count) :
    aesdRead call world filp =
      if unsigned64 filp.fPos < ((lastCommands log).head?.getD []).length then .error .fault
      else .ok (readAnswer call (lastCommands log) filp) := by
  cases h with
  | emptying base h hFull hHeap hSame =>
      have hMany := h.ring.counted.full_iff.mp hFull
      have hWalk := h.ring.walk (Nat.lt_of_lt_of_le (by decide) hMany)
      obtain ⟨id, hPtr, hGone, hOthers⟩ := freeDisplaced_spec h.ring hFull hHeap
      rw [← lastCommands] at hWalk
      obtain ⟨oldest, later, hOld⟩ := List.exists_cons_of_length_pos hWalk.some
      rw [hOld] at hWalk hSize ⊢
      have hCb : world.dev.aesdCb = base.dev.aesdCb := hSame.aesdCb
      have hOut := hWalk.outOffs
      have hIn := hWalk.inOffs
      have hSizes := hWalk.sizes
      rw [← hCb] at hOut hIn hSizes hPtr
      rw [List.head?_cons, Option.getD_some]
      split
      · next hInside =>
        have hFind := find_walk hOut hWalk.some hWalk.few hIn (unsigned64_lt filp.fPos)
          (by rw [hSizes, Segments.sum_map_length]; exact hSize)
        have hLocate : Segments.locate ((oldest :: later).map List.length) (unsigned64 filp.fPos) =
            some (0, unsigned64 filp.fPos) := if_pos hInside
        rw [hSizes, hLocate, Option.map_some, Nat.add_zero, Nat.mod_eq_of_lt hOut] at hFind
        have hOldest : (world.dev.aesdCb.slot world.dev.aesdCb.outOffs).size = oldest.length := by
          have hBytes := hWalk.slots 0 hWalk.some
          rw [Nat.add_zero, ← hCb, Nat.mod_eq_of_lt hOut] at hBytes
          exact (Kernel.length_of_load hBytes).symm
        have hAvailable : unsigned64 ((oldest.length : Int) - (unsigned64 filp.fPos : Nat)) =
            oldest.length - unsigned64 filp.fPos := by
          rw [← Int.ofNat_sub (Nat.le_of_lt hInside)]
          have hMem : oldest ∈ oldest :: later := List.mem_cons_self
          have hShort := (List.sublist_flatten_of_mem hMem).length_le
          exact unsigned64_of_lt (by omega)
        have hFault : ∀ length, 0 < length → ∀ offset fails,
            copyToUser (.block id) offset length fails world.heap = .error .fault := by
          intro length hLength offset fails
          simp [copyToUser, load, Heap.load, hGone, Nat.ne_of_gt hLength, bind, Except.bind]
        simp only [aesdRead, hBuf, hFind, hOldest, hAvailable, hPtr, bind, Except.bind, Bool.true_eq_false, ↓reduceIte]
        rw [hFault _ (by split <;> omega)]
      · next hBehind =>
        refine read_of_located hOut hWalk.some hWalk.few hIn hSizes ?_ hSize call
        intro index hIndex offset hLocate
        have hLater : index ≠ 0 := by
          rintro rfl
          obtain ⟨_, hOffset, hSum⟩ := Segments.locate_eq_some_iff.mp hLocate
          simp only [List.map_cons, List.getElem_cons_zero, List.take_zero, List.sum_nil, Nat.zero_add] at hOffset hSum
          exact hBehind (hSum ▸ hOffset)
        have hFew := hWalk.few
        have hOther : (world.dev.aesdCb.outOffs + index) % aesdcharMaxWriteOperationsSupported ≠
            world.dev.aesdCb.outOffs := by
          simp only [aesdcharMaxWriteOperationsSupported] at hFew hOut ⊢
          omega
        rw [← hWalk.slots index hIndex, hCb]
        refine load_congr fun other hSlot => hOthers other ?_
        rintro rfl
        rw [hCb] at hOther hPtr
        exact hOther (h.ring.separate _ _ other hSlot hPtr)

/-- Right after a writer has freed the oldest command, a read into a buffer
faults exactly where its position is in that command. No sum of sizes wraps. -/
theorem lock_free_read_fault (calls : Nat → WriteCall) (processes : List Nat) (trace : List (Nat × WriteAt))
    (state : Writers) (hRun : run (writers calls) processes Writers.initial = .ok (trace, state))
    (process retval : Nat) (hPoint : state.point process = .emptying retval)
    (hSize : (lastCommands (writtenLog calls (turnOrder trace).dropLast)).flatten.length < 2 ^ 64)
    (call : ReadCall) (hBuf : call.hasBuf = true) (hCount : 0 < call.count) (filp : File) :
    aesdRead call state.world filp =
      if unsigned64 filp.fPos <
          ((lastCommands (writtenLog calls (turnOrder trace).dropLast)).head?.getD []).length then .error .fault
      else .ok (readAnswer call (lastCommands (writtenLog calls (turnOrder trace).dropLast)) filp) := by
  have hLocked : (state.point process).locked = true := by rw [hPoint]; rfl
  obtain ⟨before, final, hOrder, hTaken, hFinal, hFinalLock, hInside, _⟩ := (run_turns hRun).holder hLocked
  rw [hOrder, List.dropLast_concat] at hSize ⊢
  rw [hPoint] at hInside
  exact hInside.read_emptying hSize hBuf hCount

set_option maxRecDepth 4000 in
/-- Ten lines one after another, and an eleventh that has freed the first. -/
theorem lock_free_read_fault_eleventh : ∃ trace state,
    run (writers twoWrites) (((List.range 10).map fun process => List.replicate 12 process).flatten ++
      List.replicate 4 10) Writers.initial = .ok (trace, state) ∧
      aesdRead ⟨true, 8, false⟩ state.world ⟨0⟩ = .error .fault := by
  obtain ⟨trace, state, hRun, hOrder, hPoint⟩ : ∃ trace state,
      run (writers twoWrites) (((List.range 10).map fun process => List.replicate 12 process).flatten ++
        List.replicate 4 10) Writers.initial = .ok (trace, state) ∧
        turnOrder trace = List.range 11 ∧ state.point 10 = .emptying 2 := ⟨_, _, rfl, rfl, rfl⟩
  have hRead := lock_free_read_fault twoWrites _ trace state hRun 10 2 hPoint
  rw [hOrder] at hRead
  refine ⟨trace, state, hRun, (hRead (by decide) ⟨true, 8, false⟩ rfl (by decide) ⟨0⟩).trans (if_pos ?_)⟩
  decide

end Aesd
