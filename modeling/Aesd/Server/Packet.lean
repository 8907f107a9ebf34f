import Aesd.Driver.Device
import Aesd.Semantics.Delimited

/-! How a handler thread of the server puts its packet together from what it
receives. Memory is always granted; what new memory contains is `junk`. -/
namespace Aesd
open Kernel Delimited

def BUFFER_SIZE : Nat := 100
def INT_MAX : Int := 2 ^ 31 - 1

/-- Why the handler does not get to the end: an access outside of a buffer,
a counter that leaves its range, a failed receive (the process exits), or
nothing more to receive while the connection stays open. -/
inductive ServerStop where
  | overread
  | overflow
  | counter
  | exited
  | waiting
  deriving DecidableEq, Repr

/-- What one receive delivers. -/
structure Chunk where
  bytes : List Byte
  nonempty : 1 ≤ bytes.length
  fits : bytes.length ≤ BUFFER_SIZE

/-- The receive buffer, which was zero before the chunk arrived in it. -/
def Chunk.padded (chunk : Chunk) : List Byte :=
  chunk.bytes ++ List.replicate (BUFFER_SIZE - chunk.bytes.length) 0

inductive Recv where
  | failed
  | closed
  | data (chunk : Chunk)

/-- A string in memory ends before its first zero byte. -/
def cstring (buffer : List Byte) : List Byte := before 0 buffer

/-- `strlen` and the strings have no meaning on memory without a zero byte;
nor has a copy of more bytes than the source or the destination has. -/
def strncat (dest src : List Byte) (count : Nat) : Except ServerStop (List Byte) :=
  if 0 ∉ dest then .error .overread
  else if 0 ∉ src ∧ src.length < count then .error .overread
  else
    let joined := cstring dest ++ (cstring src).take count ++ [0]
    if dest.length < joined.length then .error .overflow
    else .ok (joined ++ dest.drop joined.length)

def realloc (junk : Nat → Nat → Byte) (contents : List Byte) (size : Nat) : List Byte :=
  contents.take size ++ ((List.range size).drop contents.length).map (junk size)

/-- The local variables of the handler while it receives. -/
structure Receiving where
  outputBuffer : List Byte
  j : Int

/-- Look for a newline from index `i` on. The index ends behind the newline,
or at the end of the buffer, however little of it was received. -/
def scanLoop (buffer : List Byte) : Nat → Nat → Bool × Nat
  | 0, i => (false, i)
  | left + 1, i => if buffer[i]? = some newline then (true, i + 1) else scanLoop buffer left (i + 1)

/-- One round of the receive loop, behind the receive itself. -/
def receiveChunk (junk : Nat → Nat → Byte) (chunk : Chunk) (state : Receiving) :
    Except ServerStop (Bool × Receiving) := do
  let buffer := chunk.padded
  let (packetComplete, i) := scanLoop buffer BUFFER_SIZE 0
  let j := state.j + i
  if j + 1 > INT_MAX then .error .counter
  else
    let outputBuffer := realloc junk state.outputBuffer (j + 1).toNat
    let outputBuffer ← strncat outputBuffer buffer (i + 1)
    return (packetComplete, ⟨outputBuffer, j⟩)

def receiveLoop (junk : Nat → Nat → Byte) : List Recv → Receiving → Except ServerStop (List Byte)
  | [], _ => .error .waiting
  | .failed :: _, _ => .error .exited
  | .closed :: _, state => .ok state.outputBuffer
  | .data chunk :: rest, state => do
      let (packetComplete, state) ← receiveChunk junk chunk state
      if packetComplete then return state.outputBuffer else receiveLoop junk rest state

/-- The output buffer when the receive loop ends. -/
def assemble (junk : Nat → Nat → Byte) (events : List Recv) : Except ServerStop (List Byte) :=
  receiveLoop junk events ⟨List.replicate BUFFER_SIZE 0, 0⟩

/-- What the peer sends, chunk by chunk, and whether it then closes. -/
def deliveries (chunks : List Chunk) (closed : Bool) : List Recv :=
  chunks.map .data ++ if closed then [.closed] else []

def streamOf (chunks : List Chunk) : List Byte := (chunks.map Chunk.bytes).flatten

/-- Where in its chunk a newline is, or the length of a chunk without one. -/
def Chunk.newlineAt (chunk : Chunk) : Nat := chunk.bytes.idxOf newline

/-- The index at which the counter `j` is when the loop ends, after `rounds`
chunks without a newline. -/
def counted (rounds : Nat) : List Chunk → Nat
  | [] => BUFFER_SIZE * rounds
  | chunk :: rest =>
      if newline ∈ chunk.bytes then BUFFER_SIZE * rounds + (chunk.newlineAt + 1)
      else counted (rounds + 1) rest

/-- The chunks that come before the first newline, and the one with it. -/
def openChunks (chunks : List Chunk) : List Chunk := chunks.takeWhile fun chunk => newline ∉ chunk.bytes
def lastChunk (chunks : List Chunk) : Option Chunk := chunks.find? fun chunk => newline ∈ chunk.bytes

/-- The packet has no zero byte; no chunk before the newline fills the
buffer; the newline is not the last byte of the buffer and nothing, or a
zero byte, follows it in its chunk; and the counter stays in its range. -/
structure Framed (rounds : Nat) (chunks : List Chunk) : Prop where
  noNul : 0 ∉ through newline (streamOf chunks)
  short : ∀ chunk ∈ openChunks chunks, chunk.bytes.length < BUFFER_SIZE
  ending : ∀ chunk, lastChunk chunks = some chunk → chunk.newlineAt + 1 < BUFFER_SIZE ∧
    ∀ byte, chunk.bytes[chunk.newlineAt + 1]? = some byte → byte = 0
  range : (counted rounds chunks : Int) < INT_MAX

variable {junk : Nat → Nat → Byte} {buffer dest src out text : List Byte} {chunk : Chunk}
  {chunks rest : List Chunk} {state : Receiving} {count rounds size left i : Nat}

theorem scanLoop_eq (hSize : i + left = buffer.length) :
    scanLoop buffer left i = if newline ∈ buffer.drop i then
      (true, i + (buffer.drop i).idxOf newline + 1) else (false, buffer.length) := by
  induction left generalizing i with
  | zero => simp [scanLoop, ← hSize, List.drop_of_length_le]
  | succ left ih =>
      have hIndex : i < buffer.length := by omega
      rw [scanLoop, ih (by omega), List.drop_eq_getElem_cons hIndex, List.getElem?_eq_getElem hIndex]
      by_cases hNewline : buffer[i] = newline
      · simp [hNewline]
      · simp only [Option.some.injEq, hNewline, List.mem_cons, Ne.symm hNewline, false_or, ↓reduceIte]
        rw [List.idxOf_cons_ne _ hNewline]
        congr 3
        omega

@[simp] theorem Chunk.padded_length : chunk.padded.length = BUFFER_SIZE := by
  have hFits := chunk.fits
  simp only [Chunk.padded, List.length_append, List.length_replicate]
  omega

theorem scanLoop_padded : scanLoop chunk.padded BUFFER_SIZE 0 =
    if newline ∈ chunk.bytes then (true, chunk.newlineAt + 1) else (false, BUFFER_SIZE) := by
  rw [scanLoop_eq (by simp), List.drop_zero, Nat.zero_add, Chunk.padded_length]
  by_cases hNewline : newline ∈ chunk.bytes
  · have hFound : newline ∈ chunk.padded := List.mem_append_left _ hNewline
    rw [if_pos hFound, if_pos hNewline, Chunk.padded, List.idxOf_append_of_mem hNewline, Chunk.newlineAt]
  · have hZero : newline ∉ chunk.padded := by
      simp only [Chunk.padded, List.mem_append, List.mem_replicate, not_or, not_and]
      exact ⟨hNewline, fun _ => by decide⟩
    rw [if_neg hZero, if_neg hNewline]

/-- Only a chunk that fills the buffer leaves no zero byte in it. -/
theorem zero_mem_padded_iff : 0 ∈ chunk.padded ↔ 0 ∈ chunk.bytes ∨ chunk.bytes.length < BUFFER_SIZE := by
  simp only [Chunk.padded, List.mem_append, List.mem_replicate, and_true, Nat.sub_ne_zero_iff_lt]

theorem cstring_padded (h : 0 ∉ chunk.bytes) : cstring chunk.padded = chunk.bytes := by
  have hZeros : ∀ zeros : Nat, cstring (List.replicate zeros 0) = [] := by
    intro zeros
    cases zeros with
    | zero => rfl
    | succ zeros => rw [List.replicate_succ, cstring, before_cons_self]
  have hSplit : cstring chunk.padded = chunk.bytes ++
      cstring (List.replicate (BUFFER_SIZE - chunk.bytes.length) 0) := before_append_of_not_mem h
  rw [hSplit, hZeros, List.append_nil]

theorem strncat_ok (hDest : 0 ∈ dest) (hSrc : 0 ∈ src ∨ count ≤ src.length)
    (hFits : (cstring dest).length + ((cstring src).take count).length < dest.length) :
    ∃ out, strncat dest src count = .ok out ∧ 0 ∈ out ∧
      cstring out = cstring dest ++ (cstring src).take count := by
  have hText : (0 : Byte) ∉ cstring dest ++ (cstring src).take count := by
    rw [List.mem_append, not_or]
    exact ⟨not_mem_before, fun hMem => not_mem_before (List.mem_of_mem_take hMem)⟩
  have hRead : ¬ (0 ∉ src ∧ src.length < count) := by
    rintro ⟨hNone, hLess⟩
    rcases hSrc with hSome | hEnough
    · exact hNone hSome
    · omega
  rw [strncat, if_neg (not_not.mpr hDest), if_neg hRead]
  simp only [List.length_append, List.length_singleton, List.append_assoc, List.cons_append,
    List.nil_append]
  rw [if_neg (by omega)]
  refine ⟨_, rfl, by simp, ?_⟩
  rw [← List.append_assoc]
  exact before_append_cons hText

theorem strncat_spec (hDest : 0 ∈ dest) : strncat dest src count = .ok out →
    (0 ∈ src ∨ count ≤ src.length) ∧
      (cstring dest).length + ((cstring src).take count).length < dest.length ∧ 0 ∈ out ∧
      cstring out = cstring dest ++ (cstring src).take count := by
  intro hRun
  have hSrc : 0 ∈ src ∨ count ≤ src.length := by
    by_contra hNot
    obtain ⟨hNone, hLess⟩ := not_or.mp hNot
    rw [strncat, if_neg (not_not.mpr hDest), if_pos ⟨hNone, Nat.lt_of_not_le hLess⟩] at hRun
    cases hRun
  have hFits : (cstring dest).length + ((cstring src).take count).length < dest.length := by
    by_contra hNot
    have hRead : ¬ (0 ∉ src ∧ src.length < count) := by
      rintro ⟨hNone, hLess⟩
      exact hSrc.elim hNone (Nat.not_le_of_lt hLess)
    rw [strncat, if_neg (not_not.mpr hDest), if_neg hRead] at hRun
    simp only [List.length_append, List.length_singleton] at hRun
    rw [if_pos (by omega)] at hRun
    cases hRun
  obtain ⟨same, hSame, hZero, hText⟩ := strncat_ok hDest hSrc hFits
  rw [hRun] at hSame
  cases hSame
  exact ⟨hSrc, hFits, hZero, hText⟩

/-- The string that was kept so far, and how far the counter is ahead of it. -/
structure Holds (state : Receiving) (text : List Byte) (rounds : Nat) : Prop where
  zero : 0 ∈ state.outputBuffer
  string : cstring state.outputBuffer = text
  short : text.length ≤ (BUFFER_SIZE - 1) * rounds
  j : state.j = (BUFFER_SIZE * rounds : Nat)
  range : ((BUFFER_SIZE * rounds : Nat) : Int) < INT_MAX

theorem holds_start : Holds ⟨List.replicate BUFFER_SIZE 0, 0⟩ [] 0 where
  zero := by decide
  string := rfl
  short := Nat.le_refl 0
  j := rfl
  range := by decide

@[simp] theorem realloc_length : (realloc junk buffer size).length = size := by
  simp only [realloc, List.length_append, List.length_take, List.length_map, List.length_drop,
    List.length_range]
  omega

/-- A block that is made large enough keeps its string. -/
theorem cstring_realloc (hZero : 0 ∈ buffer) (hSize : (cstring buffer).length < size) :
    0 ∈ realloc junk buffer size ∧ cstring (realloc junk buffer size) = cstring buffer ∧
      (realloc junk buffer size).length = size := by
  have hIndex : buffer.idxOf 0 < size := by rwa [cstring, before_length] at hSize
  have hTake : 0 ∈ buffer.take size := (List.mem_take_iff_idxOf_lt hZero).mpr hIndex
  exact ⟨List.mem_append_left _ hTake, (before_append_of_mem hTake).trans (before_take hIndex),
    realloc_length⟩

/-- What a round does to the string, once its counter is in range. -/
theorem receiveChunk_eq (h : Holds state text rounds) {complete : Bool} {scanned : Nat}
    (hScan : scanLoop chunk.padded BUFFER_SIZE 0 = (complete, scanned)) (hScanned : 0 < scanned) :
    receiveChunk junk chunk state =
      if ((BUFFER_SIZE * rounds + scanned : Nat) : Int) < INT_MAX then
        (strncat (realloc junk state.outputBuffer (BUFFER_SIZE * rounds + scanned + 1)) chunk.padded
          (scanned + 1)).map fun out => (complete, ⟨out, (BUFFER_SIZE * rounds + scanned : Nat)⟩)
      else .error .counter := by
  have hCounter : state.j + scanned = (BUFFER_SIZE * rounds + scanned : Nat) := by
    rw [h.j]
    omega
  simp only [receiveChunk, hScan, hCounter]
  by_cases hRange : ((BUFFER_SIZE * rounds + scanned : Nat) : Int) < INT_MAX
  · rw [if_neg (by omega), if_pos hRange]
    have hSize : ((BUFFER_SIZE * rounds + scanned : Nat) + 1 : Int).toNat =
      BUFFER_SIZE * rounds + scanned + 1 := by omega
    rw [hSize]
    cases strncat (realloc junk state.outputBuffer (BUFFER_SIZE * rounds + scanned + 1)) chunk.padded
      (scanned + 1) <;> rfl
  · rw [if_pos (by omega), if_neg hRange]

theorem error_of_not_ok {α : Type} {result : Except ServerStop α} (h : ∀ value, result ≠ .ok value) :
    ∃ stop, result = .error stop := by
  cases result with
  | error stop => exact ⟨stop, rfl⟩
  | ok value => exact absurd rfl (h value)

/-- A chunk without a newline adds its string, if it leaves a zero byte in
the buffer, and always as many as the buffer has to the counter. -/
theorem receiveChunk_open (h : Holds state text rounds) (hOpen : newline ∉ chunk.bytes) :
    if 0 ∈ chunk.padded ∧ ((BUFFER_SIZE * (rounds + 1) : Nat) : Int) < INT_MAX then
      ∃ next, receiveChunk junk chunk state = .ok (false, next) ∧
        Holds next (text ++ cstring chunk.padded) (rounds + 1)
    else ∃ stop, receiveChunk junk chunk state = .error stop := by
  have hScan := @scanLoop_padded chunk
  rw [if_neg hOpen] at hScan
  have hRun := @receiveChunk_eq junk text chunk state rounds h _ _ hScan (by decide)
  have hShort := h.short
  have hKeep := @cstring_realloc junk state.outputBuffer (BUFFER_SIZE * rounds + BUFFER_SIZE + 1) h.zero
    (by rw [h.string]; simp only [BUFFER_SIZE] at hShort ⊢; omega)
  obtain ⟨hZero, hString, hLength⟩ := hKeep
  rw [Nat.mul_succ]
  split
  · next hCondition =>
    obtain ⟨hMem, hRange⟩ := hCondition
    have hPiece : (cstring chunk.padded).length < BUFFER_SIZE := by
      rw [cstring, before_length, ← @Chunk.padded_length chunk]
      exact List.idxOf_lt_length_of_mem hMem
    have hTake : (cstring chunk.padded).take (BUFFER_SIZE + 1) = cstring chunk.padded :=
      List.take_of_length_le (by omega)
    obtain ⟨out, hOut, hOutZero, hOutText⟩ := @strncat_ok _ chunk.padded (BUFFER_SIZE + 1) hZero
      (Or.inl hMem) (by
        rw [hTake, hString, h.string, hLength]
        simp only [BUFFER_SIZE] at hShort hPiece ⊢
        omega)
    rw [if_pos hRange, hOut] at hRun
    refine ⟨_, hRun, hOutZero, ?_, ?_, by rw [Nat.mul_succ], by rw [Nat.mul_succ]; exact hRange⟩
    · rw [hOutText, hTake, hString, h.string]
    · rw [List.length_append]
      simp only [BUFFER_SIZE] at hShort hPiece ⊢
      omega
  · next hCondition =>
    rw [hRun]
    split
    · next hRange =>
      refine error_of_not_ok fun value hOk => ?_
      cases hOut : strncat (realloc junk state.outputBuffer (BUFFER_SIZE * rounds + BUFFER_SIZE + 1))
          chunk.padded (BUFFER_SIZE + 1) with
      | error stop =>
          rw [hOut] at hOk
          cases hOk
      | ok out =>
          obtain ⟨hRead, _⟩ := strncat_spec hZero hOut
          rw [Chunk.padded_length] at hRead
          exact hCondition ⟨hRead.resolve_right (by omega), hRange⟩
    · exact ⟨_, rfl⟩

/-- What the round with the newline takes from its chunk: one byte more than
up to the newline, if there is one and it is not zero. -/
def Chunk.taken (chunk : Chunk) : List Byte := (cstring chunk.padded).take (chunk.newlineAt + 2)

theorem receiveChunk_last (h : Holds state text rounds) (hNewline : newline ∈ chunk.bytes) :
    if (0 ∈ chunk.padded ∨ chunk.newlineAt + 2 ≤ BUFFER_SIZE) ∧
        ((BUFFER_SIZE * rounds + (chunk.newlineAt + 1) : Nat) : Int) < INT_MAX ∧
        text.length + chunk.taken.length < BUFFER_SIZE * rounds + (chunk.newlineAt + 1) + 1 then
      ∃ next, receiveChunk junk chunk state = .ok (true, next) ∧
        cstring next.outputBuffer = text ++ chunk.taken
    else ∃ stop, receiveChunk junk chunk state = .error stop := by
  have hScan := @scanLoop_padded chunk
  rw [if_pos hNewline] at hScan
  have hRun := @receiveChunk_eq junk text chunk state rounds h _ _ hScan (Nat.succ_pos _)
  have hShort := h.short
  obtain ⟨hZero, hString, hLength⟩ := @cstring_realloc junk state.outputBuffer
    (BUFFER_SIZE * rounds + (chunk.newlineAt + 1) + 1) h.zero
    (by rw [h.string]; simp only [BUFFER_SIZE] at hShort ⊢; omega)
  split
  · next hCondition =>
    obtain ⟨hRead, hRange, hFits⟩ := hCondition
    obtain ⟨out, hOut, _, hOutText⟩ := @strncat_ok _ chunk.padded (chunk.newlineAt + 1 + 1) hZero
      (hRead.imp_right fun hEnough => by rw [Chunk.padded_length]; exact hEnough) (by
        rw [hString, h.string, hLength]
        exact hFits)
    rw [if_pos hRange, hOut] at hRun
    refine ⟨_, hRun, ?_⟩
    rw [hOutText, hString, h.string]
    rfl
  · next hCondition =>
    rw [hRun]
    split
    · next hRange =>
      refine error_of_not_ok fun value hOk => ?_
      cases hOut : strncat (realloc junk state.outputBuffer
          (BUFFER_SIZE * rounds + (chunk.newlineAt + 1) + 1)) chunk.padded (chunk.newlineAt + 1 + 1) with
      | error stop =>
          rw [hOut] at hOk
          cases hOk
      | ok out =>
          obtain ⟨hRead, hFits, _⟩ := strncat_spec hZero hOut
          rw [Chunk.padded_length] at hRead
          rw [hString, h.string, hLength] at hFits
          exact hCondition ⟨hRead, hRange, hFits⟩
    · exact ⟨_, rfl⟩

/-- Behind the newline at most one more byte is taken. -/
theorem taken_eq (hNewline : newline ∈ chunk.bytes) (hNoNul : 0 ∉ through newline chunk.bytes) :
    chunk.taken = through newline chunk.bytes ++ (chunk.bytes[chunk.newlineAt + 1]?.filter (· ≠ 0)).toList := by
  have hIndex : chunk.newlineAt < chunk.bytes.length := List.idxOf_lt_length_of_mem hNewline
  have hLength : (through newline chunk.bytes).length = chunk.newlineAt + 1 := by
    rw [through, List.length_take]
    exact Nat.min_eq_left hIndex
  obtain ⟨zeros, hZeros⟩ : ∃ zeros, zeros = List.replicate (BUFFER_SIZE - chunk.bytes.length) (0 : Byte) :=
    ⟨_, rfl⟩
  have hPadded : chunk.padded = through newline chunk.bytes ++
      (chunk.bytes.drop (chunk.newlineAt + 1) ++ zeros) := by
    rw [Chunk.padded, hZeros, ← List.append_assoc]
    congr 1
    exact (List.take_append_drop _ _).symm
  have hString : cstring chunk.padded = through newline chunk.bytes ++
      cstring (chunk.bytes.drop (chunk.newlineAt + 1) ++ zeros) := by
    rw [hPadded]
    exact before_append_of_not_mem hNoNul
  have hHead : chunk.bytes[chunk.newlineAt + 1]? = (chunk.bytes.drop (chunk.newlineAt + 1))[0]? := by
    rw [List.getElem?_drop, Nat.add_zero]
  rw [Chunk.taken, hString, List.take_append, List.take_of_length_le (by omega), hLength, hHead]
  congr 1
  rw [show chunk.newlineAt + 2 - (chunk.newlineAt + 1) = 1 by omega]
  cases chunk.bytes.drop (chunk.newlineAt + 1) with
  | nil =>
      cases hCount : BUFFER_SIZE - chunk.bytes.length with
      | zero => simp [hZeros, hCount, cstring, before]
      | succ count => simp [hZeros, hCount, List.replicate_succ, cstring]
  | cons byte more =>
      by_cases hByte : byte = 0
      · simp [hByte, cstring]
      · simp [cstring, before, List.idxOf_cons_ne _ hByte, Option.filter, hByte]

theorem counted_ge (rounds : Nat) (chunks : List Chunk) : BUFFER_SIZE * rounds ≤ counted rounds chunks := by
  induction chunks generalizing rounds with
  | nil => exact Nat.le_refl _
  | cons chunk rest ih =>
      rw [counted]
      split
      · exact Nat.le_add_right _ _
      · exact Nat.le_trans (Nat.mul_le_mul_left _ (Nat.le_succ rounds)) (ih (rounds + 1))

theorem framed_open (hOpen : newline ∉ chunk.bytes) : Framed rounds (chunk :: rest) ↔
    0 ∉ chunk.bytes ∧ chunk.bytes.length < BUFFER_SIZE ∧ Framed (rounds + 1) rest := by
  have hThrough : through newline (streamOf (chunk :: rest)) =
      chunk.bytes ++ through newline (streamOf rest) := through_append_of_not_mem hOpen
  have hChunks : openChunks (chunk :: rest) = chunk :: openChunks rest := by
    simp [openChunks, hOpen]
  have hLast : lastChunk (chunk :: rest) = lastChunk rest := by
    simp [lastChunk, hOpen]
  have hCounted : counted rounds (chunk :: rest) = counted (rounds + 1) rest := by
    rw [counted, if_neg hOpen]
  constructor
  · rintro ⟨hNoNul, hShort, hEnding, hRange⟩
    rw [hThrough, List.mem_append, not_or] at hNoNul
    rw [hChunks] at hShort
    rw [hLast] at hEnding
    rw [hCounted] at hRange
    exact ⟨hNoNul.1, hShort chunk List.mem_cons_self, hNoNul.2,
      fun other hOther => hShort other (List.mem_cons_of_mem _ hOther), hEnding, hRange⟩
  · rintro ⟨hNoNul, hShort, hRest⟩
    refine ⟨?_, ?_, ?_, ?_⟩
    · rw [hThrough, List.mem_append, not_or]
      exact ⟨hNoNul, hRest.noNul⟩
    · intro other hOther
      rw [hChunks] at hOther
      rcases List.mem_cons.mp hOther with rfl | hLater
      · exact hShort
      · exact hRest.short other hLater
    · rw [hLast]
      exact hRest.ending
    · rw [hCounted]
      exact hRest.range

theorem framed_last (hNewline : newline ∈ chunk.bytes) : Framed rounds (chunk :: rest) ↔
    0 ∉ through newline chunk.bytes ∧ chunk.newlineAt + 1 < BUFFER_SIZE ∧
      (∀ byte, chunk.bytes[chunk.newlineAt + 1]? = some byte → byte = 0) ∧
      ((BUFFER_SIZE * rounds + (chunk.newlineAt + 1) : Nat) : Int) < INT_MAX := by
  have hThrough : through newline (streamOf (chunk :: rest)) = through newline chunk.bytes :=
    through_append_of_mem hNewline
  have hChunks : openChunks (chunk :: rest) = [] := by
    simp [openChunks, hNewline]
  have hLast : lastChunk (chunk :: rest) = some chunk := by
    simp [lastChunk, hNewline]
  have hCounted : counted rounds (chunk :: rest) = BUFFER_SIZE * rounds + (chunk.newlineAt + 1) := by
    rw [counted, if_pos hNewline]
  constructor
  · rintro ⟨hNoNul, _, hEnding, hRange⟩
    rw [hThrough] at hNoNul
    rw [hCounted] at hRange
    obtain ⟨hInside, hNext⟩ := hEnding chunk hLast
    exact ⟨hNoNul, hInside, hNext, hRange⟩
  · rintro ⟨hNoNul, hInside, hNext, hRange⟩
    refine ⟨hThrough ▸ hNoNul, by simp [hChunks], ?_, hCounted ▸ hRange⟩
    intro other hOther
    rw [hLast] at hOther
    cases hOther
    exact ⟨hInside, hNext⟩

theorem receiveLoop_cons (closed : Bool) : receiveLoop junk (deliveries (chunk :: rest) closed) state =
    (receiveChunk junk chunk state).bind fun result =>
      if result.1 then .ok result.2.outputBuffer
      else receiveLoop junk (deliveries rest closed) result.2 := rfl

/-- On framed chunks the loop ends with the packet. -/
theorem receiveLoop_of_framed {closed : Bool} (h : Holds state text rounds) (hFramed : Framed rounds chunks)
    (hEnds : closed = true ∨ newline ∈ streamOf chunks) :
    ∃ out, receiveLoop junk (deliveries chunks closed) state = .ok out ∧
      cstring out = text ++ through newline (streamOf chunks) := by
  induction chunks generalizing state text rounds with
  | nil =>
      obtain rfl := hEnds.resolve_right (by simp [streamOf])
      exact ⟨state.outputBuffer, rfl, by rw [h.string]; simp [streamOf, through]⟩
  | cons chunk rest ih =>
      by_cases hNewline : newline ∈ chunk.bytes
      · obtain ⟨hNoNul, hInside, hNext, hRange⟩ := (framed_last hNewline).mp hFramed
        have hTaken : chunk.taken = through newline chunk.bytes := by
          rw [taken_eq hNewline hNoNul]
          cases hByte : chunk.bytes[chunk.newlineAt + 1]? with
          | none => simp
          | some byte => simp [hNext byte hByte]
        have hLength : chunk.taken.length ≤ chunk.newlineAt + 1 := by
          rw [hTaken]
          exact List.length_take_le _ _
        have hShort := h.short
        have hStep := @receiveChunk_last junk text chunk state rounds h hNewline
        rw [if_pos ⟨Or.inr (by omega), hRange, by simp only [BUFFER_SIZE] at hShort ⊢; omega⟩] at hStep
        obtain ⟨next, hRun, hString⟩ := hStep
        rw [receiveLoop_cons, hRun]
        refine ⟨next.outputBuffer, rfl, ?_⟩
        rw [hString, hTaken]
        congr 1
        exact (through_append_of_mem hNewline).symm
      · obtain ⟨hNoNul, hShort, hRest⟩ := (framed_open hNewline).mp hFramed
        have hRange : ((BUFFER_SIZE * (rounds + 1) : Nat) : Int) < INT_MAX := by
          have hGe := counted_ge (rounds + 1) rest
          have hEnd := hRest.range
          omega
        have hStep := @receiveChunk_open junk text chunk state rounds h hNewline
        rw [if_pos ⟨zero_mem_padded_iff.mpr (Or.inr hShort), hRange⟩, cstring_padded hNoNul] at hStep
        obtain ⟨next, hRun, hHolds⟩ := hStep
        have hLater : closed = true ∨ newline ∈ streamOf rest :=
          hEnds.imp_right fun hMem => (List.mem_append.mp hMem).resolve_left hNewline
        obtain ⟨out, hOut, hString⟩ := ih hHolds hRest hLater
        rw [receiveLoop_cons, hRun]
        refine ⟨out, hOut, ?_⟩
        rw [hString, List.append_assoc]
        congr 1
        exact (through_append_of_not_mem hNewline).symm

/-- A loop that ends with the packet was given framed chunks. -/
theorem framed_of_receiveLoop {closed : Bool} (h : Holds state text rounds)
    (hRun : receiveLoop junk (deliveries chunks closed) state = .ok out)
    (hString : cstring out = text ++ through newline (streamOf chunks)) : Framed rounds chunks := by
  induction chunks generalizing state text rounds with
  | nil => exact ⟨by simp [streamOf, through], by simp [openChunks], by simp [lastChunk], h.range⟩
  | cons chunk rest ih =>
      have hNoNul : 0 ∉ through newline (streamOf (chunk :: rest)) := by
        have hOut : (0 : Byte) ∉ cstring out := not_mem_before
        rw [hString, List.mem_append, not_or] at hOut
        exact hOut.2
      by_cases hNewline : newline ∈ chunk.bytes
      · have hThrough : through newline (streamOf (chunk :: rest)) = through newline chunk.bytes :=
          through_append_of_mem hNewline
        rw [hThrough] at hNoNul hString
        have hStep := @receiveChunk_last junk text chunk state rounds h hNewline
        split at hStep
        · next hCondition =>
          obtain ⟨next, hNext, hKept⟩ := hStep
          rw [receiveLoop_cons, hNext] at hRun
          cases hRun
          have hTaken : chunk.taken = through newline chunk.bytes :=
            List.append_cancel_left (hKept.symm.trans hString)
          rw [taken_eq hNewline hNoNul] at hTaken
          have hNothing := List.append_right_eq_self.mp hTaken
          refine (framed_last hNewline).mpr ⟨hNoNul, ?_, ?_, hCondition.2.1⟩
          · have hIndex : chunk.newlineAt < chunk.bytes.length := List.idxOf_lt_length_of_mem hNewline
            have hFits := chunk.fits
            refine Nat.lt_of_not_le fun hLast => ?_
            have hAll : through newline chunk.bytes = chunk.bytes :=
              List.take_of_length_le (Nat.le_trans hFits hLast)
            rw [hAll] at hNoNul
            rcases zero_mem_padded_iff.mp (hCondition.1.resolve_right (by omega)) with hZero | hShort
            · exact hNoNul hZero
            · omega
          · intro byte hByte
            by_contra hSome
            rw [hByte] at hNothing
            simp [Option.filter, hSome] at hNothing
        · obtain ⟨stop, hStop⟩ := hStep
          rw [receiveLoop_cons, hStop] at hRun
          cases hRun
      · have hStep := @receiveChunk_open junk text chunk state rounds h hNewline
        split at hStep
        · next hCondition =>
          obtain ⟨next, hNext, hHolds⟩ := hStep
          have hThrough : through newline (streamOf (chunk :: rest)) =
              chunk.bytes ++ through newline (streamOf rest) := through_append_of_not_mem hNewline
          rw [hThrough, List.mem_append, not_or] at hNoNul
          rw [hThrough, ← List.append_assoc] at hString
          rw [receiveLoop_cons, hNext] at hRun
          rw [cstring_padded hNoNul.1] at hHolds
          exact (framed_open hNewline).mpr ⟨hNoNul.1,
            (zero_mem_padded_iff.mp hCondition.1).resolve_left hNoNul.1, ih hHolds hRun hString⟩
        · obtain ⟨stop, hStop⟩ := hStep
          rw [receiveLoop_cons, hStop] at hRun
          cases hRun

/-- The string that is written later is the first line of the stream, or the
stream of a peer that closes without one, exactly on framed chunks. -/
theorem assemble_eq_packet_iff (junk : Nat → Nat → Byte) (chunks : List Chunk) (closed : Bool)
    (hEnds : closed = true ∨ newline ∈ streamOf chunks) :
    (∃ out, assemble junk (deliveries chunks closed) = .ok out ∧
      cstring out = through newline (streamOf chunks)) ↔ Framed 0 chunks := by
  constructor
  · rintro ⟨out, hRun, hString⟩
    exact framed_of_receiveLoop holds_start hRun hString
  · intro hFramed
    exact receiveLoop_of_framed holds_start hFramed hEnds

def singleChunk (bytes : List Byte) (hSize : 1 ≤ bytes.length ∧ bytes.length ≤ BUFFER_SIZE) : Chunk :=
  ⟨bytes, hSize.1, hSize.2⟩

/-- A line in two chunks, with nothing behind it. -/
theorem assemble_eq_packet_split :
    ∃ out, assemble (fun _ _ => 255)
        (deliveries [singleChunk [97] (by decide), singleChunk [98, newline] (by decide)] false) = .ok out ∧
      cstring out = [97, 98, newline] := by
  refine (assemble_eq_packet_iff _ _ _ (Or.inr (by decide))).mpr ⟨by decide, by decide, ?_, by decide⟩
  intro chunk hChunk
  have hLast : lastChunk [singleChunk [97] (by decide), singleChunk [98, newline] (by decide)] =
    some (singleChunk [98, newline] (by decide)) := rfl
  rw [hLast] at hChunk
  cases hChunk
  exact ⟨by decide, by simp [singleChunk, Chunk.newlineAt, newline]⟩

set_option maxRecDepth 4000 in
/-- A byte that comes with the newline is taken into the packet. -/
theorem not_assemble_eq_packet : ¬ ∀ (junk : Nat → Nat → Byte) (chunks : List Chunk) (closed : Bool),
    closed = true ∨ newline ∈ streamOf chunks →
    ∃ out, assemble junk (deliveries chunks closed) = .ok out ∧
      cstring out = through newline (streamOf chunks) := by
  intro hClaim
  obtain ⟨out, hRun, hString⟩ := hClaim (fun _ _ => 255)
    [singleChunk [120] (by decide), singleChunk [97, newline, 98] (by decide)] false (Or.inr (by decide))
  have hOut : (assemble (fun _ _ => 255) (deliveries
      [singleChunk [120] (by decide), singleChunk [97, newline, 98] (by decide)] false)).map cstring =
        .ok [120, 97, newline, 98] := by decide
  rw [hRun] at hOut
  have hSame : cstring out = [120, 97, newline, 98] := Except.ok.inj hOut
  rw [hSame] at hString
  exact absurd hString (by decide)

end Aesd
