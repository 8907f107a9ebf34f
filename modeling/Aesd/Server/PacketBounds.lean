import Aesd.Server.Packet

/-! When the packet assembly stays inside its buffers. The output buffer grows
by as many bytes as were scanned, and one byte more is appended with its
terminator; only a chunk that left some of its count unused makes up for it. -/
namespace Aesd
open Kernel Delimited

/-- An access outside of a buffer, or the counter out of its range. -/
def ServerStop.OutOfBounds (stop : ServerStop) : Prop :=
  stop = .overread ∨ stop = .overflow ∨ stop = .counter

/-- In no round of the loop does an access leave its buffer, nor the counter
its range. The loop may go on waiting, or end. -/
def StaysInside (junk : Nat → Nat → Byte) (chunks : List Chunk) (closed : Bool) : Prop :=
  ∀ stop, assemble junk (deliveries chunks closed) = .error stop → ¬ stop.OutOfBounds

/-- Every chunk without the newline leaves a zero byte in the buffer; so does
the one with it, or its newline is not the last byte of the buffer; if it is
the very first chunk, no byte but zero follows the newline, unless the string
ends before; and the counter stays in its range. -/
structure Contained (rounds : Nat) (chunks : List Chunk) : Prop where
  terminated : ∀ chunk ∈ openChunks chunks, 0 ∈ chunk.bytes ∨ chunk.bytes.length < BUFFER_SIZE
  ending : ∀ chunk, lastChunk chunks = some chunk → 0 ∈ chunk.bytes ∨ chunk.newlineAt + 1 < BUFFER_SIZE
  first : rounds = 0 → openChunks chunks = [] → ∀ chunk, lastChunk chunks = some chunk →
    0 ∈ chunk.bytes.take (chunk.newlineAt + 2) ∨ chunk.bytes.length < chunk.newlineAt + 2
  range : (counted rounds chunks : Int) < INT_MAX

variable {junk : Nat → Nat → Byte} {text dest src : List Byte} {chunk : Chunk} {chunks rest : List Chunk}
  {state : Receiving} {count rounds : Nat} {stop : ServerStop}

theorem openChunks_cons_open (hOpen : newline ∉ chunk.bytes) :
    openChunks (chunk :: rest) = chunk :: openChunks rest ∧ lastChunk (chunk :: rest) = lastChunk rest ∧
      counted rounds (chunk :: rest) = counted (rounds + 1) rest := by
  simp [openChunks, lastChunk, counted, hOpen]

theorem openChunks_cons_last (hNewline : newline ∈ chunk.bytes) :
    openChunks (chunk :: rest) = [] ∧ lastChunk (chunk :: rest) = some chunk ∧
      counted rounds (chunk :: rest) = BUFFER_SIZE * rounds + (chunk.newlineAt + 1) := by
  simp [openChunks, lastChunk, counted, hNewline]

theorem contained_open (hOpen : newline ∉ chunk.bytes) : Contained rounds (chunk :: rest) ↔
    (0 ∈ chunk.bytes ∨ chunk.bytes.length < BUFFER_SIZE) ∧ Contained (rounds + 1) rest := by
  obtain ⟨hChunks, hLast, hCounted⟩ := @openChunks_cons_open chunk rest rounds hOpen
  constructor
  · rintro ⟨hTerminated, hEnding, _, hRange⟩
    rw [hChunks] at hTerminated
    rw [hLast] at hEnding
    rw [hCounted] at hRange
    exact ⟨hTerminated chunk List.mem_cons_self,
      fun other hOther => hTerminated other (List.mem_cons_of_mem _ hOther), hEnding,
      fun hRounds => absurd hRounds (Nat.succ_ne_zero _), hRange⟩
  · rintro ⟨hTerminated, hRest⟩
    refine ⟨?_, hLast ▸ hRest.ending, fun _ hNone => ?_, hCounted ▸ hRest.range⟩
    · rw [hChunks, List.forall_mem_cons]
      exact ⟨hTerminated, hRest.terminated⟩
    · rw [hChunks] at hNone
      cases hNone

theorem contained_last (hNewline : newline ∈ chunk.bytes) : Contained rounds (chunk :: rest) ↔
    (0 ∈ chunk.bytes ∨ chunk.newlineAt + 1 < BUFFER_SIZE) ∧
      (rounds = 0 → 0 ∈ chunk.bytes.take (chunk.newlineAt + 2) ∨
        chunk.bytes.length < chunk.newlineAt + 2) ∧
      ((BUFFER_SIZE * rounds + (chunk.newlineAt + 1) : Nat) : Int) < INT_MAX := by
  obtain ⟨hChunks, hLast, hCounted⟩ := @openChunks_cons_last chunk rest rounds hNewline
  constructor
  · rintro ⟨_, hEnding, hFirst, hRange⟩
    exact ⟨hEnding chunk hLast, fun hRounds => hFirst hRounds hChunks chunk hLast, hCounted ▸ hRange⟩
  · rintro ⟨hEnding, hFirst, hRange⟩
    refine ⟨by simp [hChunks], fun other hOther => ?_, fun hRounds _ other hOther => ?_, hCounted ▸ hRange⟩
    · obtain rfl := Option.some.inj (hLast.symm.trans hOther)
      exact hEnding
    · obtain rfl := Option.some.inj (hLast.symm.trans hOther)
      exact hFirst hRounds

theorem strncat_error (h : strncat dest src count = .error stop) : stop.OutOfBounds := by
  unfold strncat at h
  split at h
  · exact Or.inl (Except.error.inj h).symm
  · split at h
    · exact Or.inl (Except.error.inj h).symm
    · dsimp only at h
      split at h
      · exact Or.inr (Or.inl (Except.error.inj h).symm)
      · cases h

/-- A round stops for no other reason. -/
theorem receiveChunk_error (h : receiveChunk junk chunk state = .error stop) : stop.OutOfBounds := by
  unfold receiveChunk at h
  dsimp only at h
  split at h
  · exact Or.inr (Or.inr (Except.error.inj h).symm)
  · rcases Execution.bind_error_iff.mp h with hCat | ⟨_, _, hReply⟩
    · exact strncat_error hCat
    · cases hReply

theorem padded_idxOf_le : chunk.padded.idxOf 0 ≤ chunk.bytes.length := by
  by_cases hZero : 0 ∈ chunk.bytes
  · rw [Chunk.padded, List.idxOf_append_of_mem hZero]
    exact List.idxOf_le_length
  · rw [Chunk.padded, List.idxOf_append_of_notMem hZero]
    cases BUFFER_SIZE - chunk.bytes.length with
    | zero => simp
    | succ zeros => simp [List.replicate_succ]

/-- The string taken with the newline is short exactly where it ends before
the byte behind the newline. -/
theorem taken_short_iff : chunk.taken.length < chunk.newlineAt + 2 ↔
    0 ∈ chunk.bytes.take (chunk.newlineAt + 2) ∨ chunk.bytes.length < chunk.newlineAt + 2 := by
  have hLength : chunk.taken.length = min (chunk.newlineAt + 2) (chunk.padded.idxOf 0) := by
    rw [Chunk.taken, List.length_take, cstring, before_length]
  have hIndex : chunk.padded.idxOf 0 ≤ chunk.bytes.length := padded_idxOf_le
  rw [hLength]
  by_cases hBehind : chunk.bytes.length < chunk.newlineAt + 2
  · exact iff_of_true (by omega) (Or.inr hBehind)
  · have hTake : chunk.padded.take (chunk.newlineAt + 2) = chunk.bytes.take (chunk.newlineAt + 2) :=
      List.take_append_of_le_length (Nat.le_of_not_lt hBehind)
    rw [or_iff_left hBehind, ← hTake]
    constructor
    · intro hShort
      have hZero : 0 ∈ chunk.padded := by
        rw [← List.idxOf_lt_length_iff, Chunk.padded_length]
        have hFits := chunk.fits
        omega
      exact (List.mem_take_iff_idxOf_lt hZero).mpr (by omega)
    · intro hZero
      have := (List.mem_take_iff_idxOf_lt (List.mem_of_mem_take hZero)).mp hZero
      omega

/-- From a state of the loop on, no access leaves its buffer exactly where
the chunks that are still to come are contained. -/
theorem receiveLoop_inside_iff {closed : Bool} (h : Holds state text rounds) :
    (∀ stop, receiveLoop junk (deliveries chunks closed) state = .error stop → ¬ stop.OutOfBounds) ↔
      Contained rounds chunks := by
  induction chunks generalizing state text rounds with
  | nil =>
      refine iff_of_true (fun stop hStop => ?_) ⟨by simp [openChunks], by simp [lastChunk], ?_, h.range⟩
      · cases closed with
        | true => cases hStop
        | false =>
            cases hStop
            rintro (hStop | hStop | hStop) <;> cases hStop
      · intro _ _ chunk hLast
        cases hLast
  | cons chunk rest ih =>
      rw [receiveLoop_cons]
      by_cases hNewline : newline ∈ chunk.bytes
      · have hIndex : chunk.newlineAt < chunk.bytes.length := List.idxOf_lt_length_of_mem hNewline
        have hFits := chunk.fits
        have hShort := h.short
        have hTaken : chunk.taken.length ≤ chunk.newlineAt + 2 := List.length_take_le _ _
        have hCondition : ((0 ∈ chunk.padded ∨ chunk.newlineAt + 2 ≤ BUFFER_SIZE) ∧
            ((BUFFER_SIZE * rounds + (chunk.newlineAt + 1) : Nat) : Int) < INT_MAX ∧
            text.length + chunk.taken.length < BUFFER_SIZE * rounds + (chunk.newlineAt + 1) + 1) ↔
            Contained rounds (chunk :: rest) := by
          rw [contained_last hNewline, zero_mem_padded_iff, ← taken_short_iff, or_assoc]
          refine and_congr (or_congr Iff.rfl (by omega)) ?_
          rw [and_comm]
          refine and_congr ?_ Iff.rfl
          -- each chunk before took one byte less than it counted
          rcases Nat.eq_zero_or_pos rounds with rfl | hLater
          · simp only [Nat.mul_zero, forall_const] at hShort ⊢
            omega
          · refine iff_of_true ?_ (fun hNone => absurd hNone (Nat.ne_of_gt hLater))
            simp only [BUFFER_SIZE] at hShort ⊢
            omega
        rw [← hCondition]
        have hStep := @receiveChunk_last junk text chunk state rounds h hNewline
        split at hStep
        · next hInside =>
          obtain ⟨next, hRun, _⟩ := hStep
          rw [hRun]
          exact iff_of_true (fun stop hStop => by cases hStop) hInside
        · next hOutside =>
          obtain ⟨stop, hRun⟩ := hStep
          rw [hRun]
          exact iff_of_false (fun hNone => hNone stop rfl (receiveChunk_error hRun)) hOutside
      · have hStep := @receiveChunk_open junk text chunk state rounds h hNewline
        rw [contained_open hNewline, ← zero_mem_padded_iff]
        split at hStep
        · next hInside =>
          obtain ⟨next, hRun, hHolds⟩ := hStep
          rw [hRun, and_iff_right hInside.1]
          exact ih hHolds
        · next hOutside =>
          obtain ⟨stop, hRun⟩ := hStep
          rw [hRun]
          refine iff_of_false (fun hNone => hNone stop rfl (receiveChunk_error hRun)) ?_
          rintro ⟨hZero, hRest⟩
          have hGe := counted_ge (rounds + 1) rest
          have hRange := hRest.range
          exact hOutside ⟨hZero, by omega⟩

/-- The assembly stays inside its buffers, for any bytes in any chunks,
exactly where the chunks are contained. -/
theorem staysInside_iff (junk : Nat → Nat → Byte) (chunks : List Chunk) (closed : Bool) :
    StaysInside junk chunks closed ↔ Contained 0 chunks :=
  receiveLoop_inside_iff holds_start

/-- The byte that comes with the newline of the first chunk is written one
byte behind the three that were allocated. -/
theorem not_staysInside : ¬ ∀ (junk : Nat → Nat → Byte) (chunks : List Chunk) (closed : Bool),
    StaysInside junk chunks closed := by
  intro hClaim
  have hStop : assemble (fun _ _ => 255) (deliveries [singleChunk [97, newline, 98] (by decide)] false) =
      .error .overflow := by decide
  exact hClaim _ _ _ _ hStop (Or.inr (Or.inl rfl))

end Aesd
