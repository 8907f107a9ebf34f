import Aesd.Driver.CircularBuffer
import Aesd.Semantics.BoundedQueue

/-! The circular buffer by itself, for entries of any kind: it is a bounded
queue, and the lookup in it is indexing into the concatenated entries. -/
namespace Aesd
open Kernel Word Execution

/-- Whether the buffer was full at the call, and the pointer returned. -/
structure AddReply where
  wasFull : Bool
  value : Ptr
  deriving DecidableEq, Repr

/-- The reply tells of the entry that a queue dropped, or of none. -/
def AddReply.Matches (reply : AddReply) (dropped : Option AesdBufferEntry) : Prop :=
  reply.wasFull = dropped.isSome ∧ reply.value = (dropped.map AesdBufferEntry.buffptr).getD .null

/-- The caller's view of adding an entry. -/
def addEntry : Machine Stop AesdBufferEntry AddReply AesdCircularBuffer := fun added buffer =>
  .ok (⟨buffer.full, (aesdCircularBufferAddEntry buffer added).1⟩,
    (aesdCircularBufferAddEntry buffer added).2)

/-- The pointers returned by the calls that found the buffer full. -/
def displaced (trace : List (AesdBufferEntry × AddReply)) : List Ptr :=
  (trace.filter fun call => call.2.wasFull).map fun call => call.2.value

/-- A full buffer gives up its oldest entry and returns its pointer; one with
room returns null and keeps all entries. -/
def DropsOldest (buffer : AesdCircularBuffer) (added : AesdBufferEntry) : Prop :=
  if buffer.full then ∃ oldest kept, buffer.entries = oldest :: kept ∧
    (aesdCircularBufferAddEntry buffer added).1 = oldest.buffptr ∧
    (aesdCircularBufferAddEntry buffer added).2.entries = kept ++ [added]
  else (aesdCircularBufferAddEntry buffer added).1 = .null ∧
    (aesdCircularBufferAddEntry buffer added).2.entries = buffer.entries ++ [added]

/-- The buffer after these entries were added to an empty one. -/
structure Queued (buffer : AesdCircularBuffer) (entries : List AesdBufferEntry) : Prop where
  counted : Counted buffer entries.length
  held : Ring.Holds aesdcharMaxWriteOperationsSupported buffer.slot entries

/-- The entries that a buffer still has after all of these were added. -/
def lastEntries (entries : List AesdBufferEntry) : List AesdBufferEntry :=
  entries.rtake aesdcharMaxWriteOperationsSupported

/-- In the concatenation of the entries, the position is the byte at `offset`
of the entry at `age`. -/
def FallsIn (entries : List AesdBufferEntry) (charOffset age offset : Nat) : Prop :=
  ∃ h : age < entries.length, offset < entries[age].size ∧
    charOffset = offset + ((entries.take age).map AesdBufferEntry.size).sum

variable {buffer next : AesdCircularBuffer} {added : AesdBufferEntry} {entries : List AesdBufferEntry}
  {reply : AddReply} {trace : List (AesdBufferEntry × AddReply)}

theorem lastEntries_length : (lastEntries entries).length =
    min entries.length aesdcharMaxWriteOperationsSupported :=
  Ring.rtake_length

theorem lastEntries_concat : lastEntries (entries ++ [added]) =
    if entries.length < aesdcharMaxWriteOperationsSupported then lastEntries entries ++ [added]
    else (lastEntries entries).tail ++ [added] :=
  Ring.rtake_concat (by decide)

namespace Queued

theorem init : Queued aesdCircularBufferInit [] := ⟨counted_init, Ring.holds_nil⟩

theorem entries_eq (h : Queued buffer entries) :
    buffer.entries = lastEntries entries := by
  simpa [lastEntries] using @Counted.entries_map buffer _ _ h.counted id h.held

theorem add (h : Queued buffer entries) :
    Queued (aesdCircularBufferAddEntry buffer added).2 (entries ++ [added]) := by
  obtain ⟨hCounted, hSlot⟩ := @Counted.addEntry buffer added _ h.counted
  refine ⟨by simpa using hCounted, h.held.push ?_ fun index hIndex => ?_⟩
  · rw [hSlot, if_pos rfl]
  · rw [hSlot, if_neg hIndex]

/-- The offsets meet in an empty buffer and in a full one. -/
theorem offs_eq_iff (h : Queued buffer entries) :
    buffer.inOffs = buffer.outOffs ↔ buffer.entries = [] ∨ buffer.full = true := by
  have hEmpty : buffer.entries = [] ↔ entries = [] := by
    rw [h.entries_eq, ← List.length_eq_zero_iff, lastEntries_length, ← List.length_eq_zero_iff]
    simp only [aesdcharMaxWriteOperationsSupported]
    omega
  rw [hEmpty, h.counted.full_iff, h.counted.inOffs, h.counted.outOffs, ← List.length_eq_zero_iff]
  simp only [aesdcharMaxWriteOperationsSupported]
  omega

/-- The oldest entry of a full buffer is in the slot of `outOffs`. -/
theorem oldest (h : Queued buffer entries) (hFull : buffer.full = true) :
    ∃ kept, buffer.entries = buffer.slot buffer.outOffs :: kept := by
  refine ⟨buffer.entries.tail, ?_⟩
  have hCount : buffer.count = 9 + 1 := by
    rw [AesdCircularBuffer.count, if_pos hFull]
  rw [AesdCircularBuffer.entries, hCount, Ring.window, List.range_succ_eq_map, List.map_cons,
    Nat.add_zero, Nat.mod_eq_of_lt h.counted.outOffs_lt, List.tail_cons]

theorem dropsOldest (h : Queued buffer entries) (added : AesdBufferEntry) : DropsOldest buffer added := by
  have hNext := (@add _ added _ h).entries_eq
  rw [lastEntries_concat] at hNext
  unfold DropsOldest
  split
  · next hFull =>
    obtain ⟨kept, hKept⟩ := h.oldest hFull
    refine ⟨_, kept, hKept, by simp [aesdCircularBufferAddEntry, hFull], ?_⟩
    rw [hNext, if_neg (Nat.not_lt_of_le (h.counted.full_iff.mp hFull)), ← h.entries_eq, hKept,
      List.tail_cons]
  · next hSpace =>
    refine ⟨by simp [aesdCircularBufferAddEntry, hSpace], ?_⟩
    rw [hNext, if_pos (Nat.lt_of_not_le (mt h.counted.full_iff.mpr hSpace)), h.entries_eq]

end Queued

/-- A buffer and a queue run in step: what the buffer displaces is what the
queue drops. -/
theorem addEntry_refines (hQueued : Queued buffer entries)
    (hAdd : addEntry added buffer = .ok (reply, next)) :
    ∃ answer, BoundedQueue.push Stop aesdcharMaxWriteOperationsSupported added buffer.entries =
        .ok (answer, next.entries) ∧
      reply.Matches answer := by
  have hLength : buffer.entries.length < aesdcharMaxWriteOperationsSupported ↔ ¬ buffer.full = true := by
    rw [hQueued.entries_eq, lastEntries_length, hQueued.counted.full_iff]
    omega
  have hDrops := hQueued.dropsOldest added
  rw [DropsOldest] at hDrops
  cases hAdd
  split at hDrops
  · next hFull =>
    obtain ⟨oldest, kept, hEntries, hValue, hNext⟩ := hDrops
    refine ⟨some oldest, ?_, by simp [AddReply.Matches, hFull, hValue]⟩
    rw [BoundedQueue.push, if_neg (fun hSpace => hLength.mp hSpace hFull), hEntries, hNext]
    rfl
  · next hSpace =>
    obtain ⟨hValue, hNext⟩ := hDrops
    refine ⟨none, ?_, by simp [AddReply.Matches, hSpace, hValue]⟩
    rw [BoundedQueue.push, if_pos (hLength.mpr hSpace), hNext]

theorem run_queued (hRun : run addEntry entries aesdCircularBufferInit = .ok (trace, buffer)) :
    Queued buffer entries := by
  have hMotive := run_induct (fun history buffer => Queued buffer (history.map Prod.fst))
    ?_ [] Queued.init along_true hRun
  · simpa [trace_actions hRun] using hMotive
  · intro history middle entry reply after hQueued hStep _
    cases hStep
    simpa using @Queued.add _ entry _ hQueued

theorem run_addEntry_ok (entries : List AesdBufferEntry) :
    ∃ trace buffer, run addEntry entries aesdCircularBufferInit = .ok (trace, buffer) := by
  have hStep : ∀ (history : List (AesdBufferEntry × AddReply)) (buffer : AesdCircularBuffer)
      (entry : AesdBufferEntry), True → True →
      ∃ reply next, addEntry entry buffer = .ok (reply, next) ∧ True :=
    fun _ buffer entry _ _ => ⟨_, _, rfl, trivial⟩
  obtain ⟨trace, buffer, hRun, _⟩ := run_total (fun _ _ => True) (fun _ => True) hStep []
    trivial (fun entry _ => trivial)
  exact ⟨trace, buffer, hRun⟩

/-- What a buffer displaces over a run is what a queue that answers in step
with it drops. -/
theorem displaced_eq {answers : List (AesdBufferEntry × Option AesdBufferEntry)}
    (h : List.Forall₂ (fun event answer => event.2.Matches answer.2) trace answers) :
    displaced trace = (BoundedQueue.dropped answers).map AesdBufferEntry.buffptr := by
  induction h with
  | nil => rfl
  | @cons event answer _ _ hAnswer _ ih =>
      rw [displaced, BoundedQueue.dropped] at ih ⊢
      cases hDropped : answer.2 with
      | none => simpa [hDropped, hAnswer.1, hAnswer.2] using ih
      | some oldest => simpa [hDropped, hAnswer.1, hAnswer.2] using ih

/-- The run of the buffer is a run of the bounded queue. -/
theorem run_addEntry_refines (hRun : run addEntry entries aesdCircularBufferInit = .ok (trace, buffer)) :
    ∃ answers, run (BoundedQueue.push Stop aesdcharMaxWriteOperationsSupported) entries [] =
        .ok (answers, buffer.entries) ∧
      displaced trace = (BoundedQueue.dropped answers).map AesdBufferEntry.buffptr := by
  obtain ⟨answers, final, hQueue, hAnswers, _, rfl⟩ := run_simulation
    (fun buffer queue => (∃ entries, Queued buffer entries) ∧ queue = buffer.entries)
    AddReply.Matches
    (by
      rintro middle _ entry reply after ⟨⟨added, hQueued⟩, rfl⟩ hStep
      obtain ⟨answer, hPush, hReply⟩ := addEntry_refines hQueued hStep
      cases hStep
      exact ⟨answer, _, hPush, hReply, ⟨_, hQueued.add⟩, rfl⟩)
    ⟨⟨[], Queued.init⟩, Queued.init.entries_eq.symm⟩ hRun
  exact ⟨answers, hQueue, displaced_eq hAnswers⟩

/-- For any entries added to an empty buffer: the offsets stay in range, the
flag and the offsets tell a full buffer from an empty one, the walk from
`outOffs` meets the last entries added, each call drops the oldest entry of a
full buffer and none otherwise, and no pointer is lost or given out twice. -/
theorem bounded_queue (entries : List AesdBufferEntry) :
    ∃ trace buffer, run addEntry entries aesdCircularBufferInit = .ok (trace, buffer) ∧
      buffer.inOffs < aesdcharMaxWriteOperationsSupported ∧
      buffer.outOffs < aesdcharMaxWriteOperationsSupported ∧
      (buffer.full = true ↔ aesdcharMaxWriteOperationsSupported ≤ entries.length) ∧
      (buffer.inOffs = buffer.outOffs ↔ buffer.entries = [] ∨ buffer.full = true) ∧
      buffer.entries = lastEntries entries ∧
      Along addEntry (fun buffer added _ => DropsOldest buffer added) entries aesdCircularBufferInit ∧
      displaced trace ++ buffer.entries.map AesdBufferEntry.buffptr =
        entries.map AesdBufferEntry.buffptr := by
  obtain ⟨trace, buffer, hRun⟩ := run_addEntry_ok entries
  have hQueued := run_queued hRun
  refine ⟨trace, buffer, hRun, hQueued.counted.inOffs_lt, hQueued.counted.outOffs_lt,
    hQueued.counted.full_iff, hQueued.offs_eq_iff, ?_, ?_, ?_⟩
  · obtain ⟨answers, hQueue, _⟩ := run_addEntry_refines hRun
    exact BoundedQueue.run_rtake (by decide) hQueue
  · rw [along_iff_split]
    intro before added after earlier middle reply next _ hBefore _
    exact (run_queued hBefore).dropsOldest added
  · obtain ⟨answers, hQueue, hDisplaced⟩ := run_addEntry_refines hRun
    rw [hDisplaced, ← List.map_append, BoundedQueue.run_conserves (by decide) hQueue, List.nil_append]

/-- In a buffer that entries were added to, the slots met from `outOffs` on
have the entries that are still stored. -/
theorem Queued.slot_stored (h : Queued buffer entries) {age : Nat}
    (hAge : age < (lastEntries entries).length) :
    buffer.slot ((buffer.outOffs + age) % aesdcharMaxWriteOperationsSupported) =
      (lastEntries entries)[age] := by
  have hWindow : age < buffer.entries.length := by
    rwa [h.entries_eq]
  simp only [← h.entries_eq]
  exact (Ring.window_getElem hWindow).symm

theorem locate_eq_some_iff_fallsIn {charOffset age offset : Nat} :
    Segments.locate (entries.map AesdBufferEntry.size) charOffset = some (age, offset) ↔
      FallsIn entries charOffset age offset := by
  rw [Segments.locate_eq_some_iff, FallsIn]
  constructor
  · rintro ⟨hAge, hOffset, hSum⟩
    refine ⟨by simpa using hAge, by simpa using hOffset, ?_⟩
    rw [List.map_take, ← hSum, Nat.add_comm]
  · rintro ⟨hAge, hOffset, hSum⟩
    refine ⟨by simpa using hAge, by simpa using hOffset, ?_⟩
    rw [hSum, List.map_take, Nat.add_comm]

/-- The lookup ends in every buffer that can be reached, within as many
rounds as there are slots. It finds nothing exactly from the stored total on,
and otherwise the one stored entry and the one offset inside it that the
position falls in. -/
theorem find_indexes (entries : List AesdBufferEntry) (trace : List (AesdBufferEntry × AddReply))
    (buffer : AesdCircularBuffer) (charOffset : Nat)
    (hRun : run addEntry entries aesdCircularBufferInit = .ok (trace, buffer))
    (hTotal : ((lastEntries entries).map AesdBufferEntry.size).sum < 2 ^ 64) (hOffset : charOffset < 2 ^ 64) :
    ∃ found, aesdCircularBufferFindEntryOffsetForFpos buffer charOffset = .ok found ∧
      (found = none ↔ ((lastEntries entries).map AesdBufferEntry.size).sum ≤ charOffset) ∧
      ∀ index offset, found = some (index, offset) →
        index < aesdcharMaxWriteOperationsSupported ∧
        ∃ age, (lastEntries entries)[age]? = some (buffer.slot index) ∧
          index = (buffer.outOffs + age) % aesdcharMaxWriteOperationsSupported ∧
          FallsIn (lastEntries entries) charOffset age offset ∧
          ∀ other rest, FallsIn (lastEntries entries) charOffset other rest → other = age ∧ rest = offset := by
  have hQueued := run_queued hRun
  have hStored : buffer.entries = lastEntries entries := hQueued.entries_eq
  have hFind := find_eq hQueued.counted hOffset (by rwa [hStored])
  rw [hStored] at hFind
  refine ⟨_, hFind, ?_, ?_⟩
  · rw [Option.map_eq_none_iff, Segments.locate_eq_none_iff]
  · intro index offset hFound
    obtain ⟨⟨age, rest⟩, hLocate, hSlot⟩ := Option.map_eq_some_iff.mp hFound
    obtain ⟨rfl, rfl⟩ := Prod.mk.inj hSlot
    have hFalls := locate_eq_some_iff_fallsIn.mp hLocate
    obtain ⟨hAge, _⟩ := id hFalls
    refine ⟨Nat.mod_lt _ (by decide), age, ?_, rfl, hFalls, fun other offset hOther => ?_⟩
    · rw [hQueued.slot_stored hAge, List.getElem?_eq_getElem hAge]
    · have hSame := (locate_eq_some_iff_fallsIn.mpr hOther).symm.trans hLocate
      exact Prod.mk.inj (Option.some.inj hSame)

/-- Eleven entries of the sizes 0 to 10: the first one is gone, and position
three is the first byte of the third that is stored. -/
theorem find_indexes_wrapped : ∃ trace buffer found,
    run addEntry ((List.range 11).map fun size => ⟨.null, size⟩) aesdCircularBufferInit = .ok (trace, buffer) ∧
      aesdCircularBufferFindEntryOffsetForFpos buffer 3 = .ok found ∧
      (found = none ↔ ((lastEntries ((List.range 11).map fun size => ⟨.null, size⟩)).map
        AesdBufferEntry.size).sum ≤ 3) := by
  obtain ⟨trace, buffer, hRun⟩ := run_addEntry_ok ((List.range 11).map fun size => ⟨.null, size⟩)
  obtain ⟨found, hFind, hNone, _⟩ := find_indexes _ trace buffer 3 hRun (by decide) (by decide)
  exact ⟨trace, buffer, found, hRun, hFind, hNone⟩

end Aesd
