import Aesd.Semantics.Memory

/-! The parts of a kernel that a character driver calls: the allocator, the
copies from and to user space, and the byte searches. What the environment
decides (whether an allocation is granted, how much of a copy arrives, what
new memory contains) is an argument of the call. -/
namespace Kernel
open Memory

abbrev Byte := UInt8

/-- Why a call does not return. `fault` is an access to memory that is not
a live allocation of the module, a second free included; `blocked` waits for
a lock that nobody will release; `spin` is a loop without an end. -/
inductive Stop where
  | blocked
  | fault
  | spin
  deriving DecidableEq, Repr

/-- A pointer. A request for no bytes is answered by `zeroSize`, which is
not the null pointer but must not be accessed. -/
inductive Ptr where
  | null
  | zeroSize
  | block (id : Nat)
  deriving DecidableEq, Repr

/-- Error numbers, as the kernel headers give them. -/
def EFAULT : Int := 14
def ENOMEM : Int := 12
def EINVAL : Int := 22
def ERESTARTSYS : Int := 512

/-- The bytes from `offset` on. No byte is read for a count of zero. -/
def load (ptr : Ptr) (offset count : Nat) (heap : Heap Byte) : Except Stop (List Byte) :=
  if count = 0 then .ok []
  else match ptr with
    | .block id =>
        match heap.load id offset count with
        | some bytes => .ok bytes
        | none => .error .fault
    | _ => .error .fault

def store (ptr : Ptr) (offset : Nat) (bytes : List Byte) (heap : Heap Byte) : Except Stop (Heap Byte) :=
  if bytes = [] then .ok heap
  else match ptr with
    | .block id =>
        match heap.store id offset bytes with
        | some next => .ok next
        | none => .error .fault
    | _ => .error .fault

/-- New memory contains whatever was there before: `junk`. -/
def kmalloc (granted : Bool) (junk : Nat → Byte) (size : Nat) (heap : Heap Byte) : Ptr × Heap Byte :=
  if size = 0 then (.zeroSize, heap)
  else if granted then (.block heap.next, heap.alloc ((List.range size).map junk))
  else (.null, heap)

/-- Freeing what is not allocated is a fault, freeing no memory is not. -/
def kfree (ptr : Ptr) (heap : Heap Byte) : Except Stop (Heap Byte) :=
  match ptr with
  | .block id => if heap.Live id then .ok (heap.free id) else .error .fault
  | _ => .ok heap

/-- The contents survive up to the smaller of the two sizes. A block that
was granted gets a new identifier, whether or not it moved; on failure the
old block stays allocated. -/
def krealloc (granted : Bool) (junk : Nat → Byte) (ptr : Ptr) (size : Nat) (heap : Heap Byte) :
    Except Stop (Ptr × Heap Byte) :=
  if size = 0 then do
    let heap ← kfree ptr heap
    return (.zeroSize, heap)
  else match ptr with
    | .block id =>
        match heap.block id with
        | none => .error .fault
        | some contents =>
            if granted then
              let resized := contents.take size ++ ((List.range size).drop contents.length).map junk
              .ok (.block heap.next, (heap.alloc resized).free id)
            else .ok (.null, heap)
    | _ => .ok (kmalloc granted junk size heap)

def memset (ptr : Ptr) (offset : Nat) (byte : Byte) (count : Nat) (heap : Heap Byte) :
    Except Stop (Heap Byte) :=
  store ptr offset (List.replicate count byte) heap

/-- Whether the byte occurs in the first `count` bytes. -/
def memchr (ptr : Ptr) (byte : Byte) (count : Nat) (heap : Heap Byte) : Except Stop Bool := do
  let bytes ← load ptr 0 count heap
  return decide (byte ∈ bytes)

/-- Copy `data` to `ptr` at `offset`. At most `copied` bytes arrive, the
rest is padded with zeros; the result is the number of bytes missing. -/
def copyFromUser (ptr : Ptr) (offset : Nat) (data : List Byte) (copied : Nat) (heap : Heap Byte) :
    Except Stop (Nat × Heap Byte) := do
  let missing := data.length - copied
  let heap ← store ptr offset (data.take copied ++ List.replicate missing 0) heap
  return (missing, heap)

/-- Copy bytes out to user space, or report that the copy failed. A copy of
no bytes can not fail. -/
def copyToUser (ptr : Ptr) (offset count : Nat) (fails : Bool) (heap : Heap Byte) :
    Except Stop (Option (List Byte)) := do
  let bytes ← load ptr offset count heap
  return if fails ∧ 0 < count then none else some bytes

variable {heap next : Heap Byte} {ptr : Ptr} {id offset count : Nat} {bytes old contents : List Byte}
  {granted : Bool} {junk : Nat → Byte}

@[simp] theorem load_zero : load ptr offset 0 heap = .ok [] := by simp [load]

theorem load_null (hCount : 0 < count) : load .null offset count heap = .error .fault := by
  simp [load, Nat.ne_of_gt hCount]

/-- Memory is never waited for. -/
theorem copyToUser_ne_blocked {fails : Bool} :
    copyToUser ptr offset count fails heap ≠ .error .blocked := by
  intro h
  have hLoad : load ptr offset count heap ≠ .error .blocked := by
    unfold load
    split
    · simp
    · split
      · split <;> simp
      · simp
  unfold copyToUser at h
  cases hBytes : load ptr offset count heap with
  | ok bytes => simp [hBytes, bind, Except.bind, pure, Except.pure] at h
  | error stop =>
      simp only [hBytes, bind, Except.bind, Except.error.injEq] at h
      exact hLoad (h ▸ hBytes)

theorem load_block (hCount : 0 < count) (h : heap.load id offset count = some bytes) :
    load (.block id) offset count heap = .ok bytes := by
  simp [load, h, Nat.ne_of_gt hCount]

theorem load_block_iff (hCount : 0 < count) :
    load (.block id) offset count heap = .ok bytes ↔ heap.load id offset count = some bytes := by
  refine ⟨fun h => ?_, load_block hCount⟩
  simp only [load, Nat.ne_of_gt hCount, ↓reduceIte] at h
  split at h
  · simp_all
  · cases h

/-- Bytes come only from a live block. -/
theorem block_of_load (hCount : 0 < count) (h : load ptr offset count heap = .ok bytes) :
    ∃ id, ptr = .block id ∧ heap.load id offset count = some bytes := by
  cases ptr with
  | block id => exact ⟨id, rfl, (load_block_iff hCount).mp h⟩
  | null => simp [load, Nat.ne_of_gt hCount] at h
  | zeroSize => simp [load, Nat.ne_of_gt hCount] at h

theorem length_of_load (h : load ptr offset count heap = .ok bytes) : bytes.length = count := by
  rcases Nat.eq_zero_or_pos count with rfl | hCount
  · rw [load_zero, Except.ok.injEq] at h
    rw [← h, List.length_nil]
  · obtain ⟨id, _, hLoad⟩ := block_of_load hCount h
    exact Heap.length_of_load hLoad

/-- A load depends only on the block it reads. -/
theorem load_congr (h : ∀ id, ptr = .block id → next.block id = heap.block id) :
    load ptr offset count next = load ptr offset count heap := by
  cases ptr with
  | block id => simp only [load, Heap.load_congr (h id rfl)]
  | null => rfl
  | zeroSize => rfl

theorem load_part (h : load ptr 0 count heap = .ok bytes) {start size : Nat}
    (hPart : start + size ≤ count) :
    load ptr start size heap = .ok ((bytes.drop start).take size) := by
  rcases Nat.eq_zero_or_pos size with rfl | hSize
  · simp
  · obtain ⟨id, rfl, hLoad⟩ := block_of_load (by omega) h
    exact load_block hSize (Heap.load_part hLoad hPart)

theorem kmalloc_granted (hSize : 0 < count) :
    kmalloc true junk count heap = (.block heap.next, heap.alloc ((List.range count).map junk)) := by
  simp [kmalloc, Nat.ne_of_gt hSize]

theorem krealloc_granted (junk : Nat → Byte) (hSize : 0 < count) (hBlock : heap.block id = some contents) :
    krealloc true junk (.block id) count heap = .ok (.block heap.next,
      (heap.alloc (contents.take count ++ ((List.range count).drop contents.length).map junk)).free id) := by
  simp [krealloc, Nat.ne_of_gt hSize, hBlock]

/-- A block that grows moves, with what is at its start, and the other blocks
stay. -/
theorem krealloc_moves {size : Nat} (junk : Nat → Byte) (hCount : 0 < count) (hGrow : count ≤ size)
    (hLoad : load ptr 0 count heap = .ok bytes) :
    ∃ id after contents, ptr = .block id ∧
      krealloc true junk ptr size heap = .ok (.block heap.next, after) ∧
      after.block heap.next = some contents ∧ contents.length = size ∧
      load (.block heap.next) 0 count after = .ok bytes ∧
      ∀ other, heap.Live other → other ≠ id → after.block other = heap.block other := by
  obtain ⟨id, rfl, hOld⟩ := block_of_load hCount hLoad
  obtain ⟨contents, hBlock, hFits, hTake⟩ := Heap.load_eq_some_iff.mp hOld
  obtain ⟨resized, hResized⟩ : ∃ resized, resized =
    contents.take size ++ ((List.range size).drop contents.length).map junk := ⟨_, rfl⟩
  have hRealloc := krealloc_granted junk (Nat.lt_of_lt_of_le hCount hGrow) hBlock
  rw [← hResized] at hRealloc
  have hLength : resized.length = size := by
    rw [hResized]
    simp only [List.length_append, List.length_take, List.length_map, List.length_drop, List.length_range]
    omega
  have hNew : ((heap.alloc resized).free id).block heap.next = some resized := by
    rw [Heap.free_block_of_ne (Heap.ne_next_of_live (Heap.live_of_block hBlock)).symm, Heap.alloc_block_next]
  refine ⟨id, _, resized, rfl, hRealloc, hNew, hLength, ?_, fun other hLive hOther => ?_⟩
  · refine load_block hCount (Heap.load_eq_some_iff.mpr ⟨_, hNew, by omega, ?_⟩)
    rw [List.drop_zero, hResized, List.take_append_of_le_length (by rw [List.length_take]; omega),
      List.take_take, Nat.min_eq_left hGrow]
    simpa using hTake
  · rw [Heap.free_block_of_ne hOther, Heap.alloc_block_of_live hLive]

theorem krealloc_refused (junk : Nat → Byte) (hSize : 0 < count) (hBlock : heap.block id = some contents) :
    krealloc false junk (.block id) count heap = .ok (.null, heap) := by
  simp [krealloc, Nat.ne_of_gt hSize, hBlock]

theorem kfree_live (h : heap.Live id) : kfree (.block id) heap = .ok (heap.free id) := by
  simp [kfree, h]

theorem kmalloc_live {size : Nat} (h : kmalloc granted junk size heap = (ptr, next)) :
    next.Live id ↔ ptr = .block id ∨ heap.Live id := by
  unfold kmalloc at h
  split at h
  · obtain ⟨rfl, rfl⟩ := Prod.mk.inj h
    simp
  · split at h
    · obtain ⟨rfl, rfl⟩ := Prod.mk.inj h
      rw [Heap.live_alloc, Ptr.block.injEq, eq_comm]
    · obtain ⟨rfl, rfl⟩ := Prod.mk.inj h
      simp

/-- A block that was granted replaces the old one; a request that is refused
leaves the old block live. -/
theorem krealloc_live {old : Nat} (hCount : 0 < count)
    (h : krealloc granted junk (.block old) count heap = .ok (ptr, next)) :
    next.Live id ↔ ptr = .block id ∨ heap.Live id ∧ (granted = true → id ≠ old) := by
  cases hBlock : heap.block old with
  | none => simp [krealloc, Nat.ne_of_gt hCount, hBlock] at h
  | some contents =>
      cases granted with
      | true =>
          rw [krealloc_granted junk hCount hBlock] at h
          cases h
          have hNew := Heap.ne_next_of_live (Heap.live_of_block hBlock)
          rw [Heap.live_free, Heap.live_alloc, Ptr.block.injEq]
          constructor
          · rintro ⟨rfl | hLive, hOld⟩
            · exact Or.inl rfl
            · exact Or.inr ⟨hLive, fun _ => hOld⟩
          · rintro (rfl | ⟨hLive, hOld⟩)
            · exact ⟨Or.inl rfl, Ne.symm hNew⟩
            · exact ⟨Or.inr hLive, hOld rfl⟩
      | false =>
          rw [krealloc_refused junk hCount hBlock] at h
          cases h
          simp

/-- Writing to memory allocates nothing and frees nothing. -/
theorem store_live (h : store ptr offset bytes heap = .ok next) : next.Live id ↔ heap.Live id := by
  unfold store at h
  split at h
  · cases h
    rfl
  · split at h
    · split at h
      · next hStore =>
        cases h
        exact Heap.live_store hStore
      · cases h
    · cases h

/-- Bytes stored at the end of a live block are stored without a fault; the
other blocks, and the length of this one, stay as they are. -/
theorem store_block (offset : Nat) (bytes : List Byte) (hBlock : heap.block id = some contents)
    (hFits : offset + bytes.length ≤ contents.length) :
    ∃ next, store (.block id) offset bytes heap = .ok next ∧
      next.block id = some (Heap.overwrite contents offset bytes) ∧
      (∀ other, other ≠ id → next.block other = heap.block other) ∧ next.next = heap.next := by
  cases bytes with
  | nil =>
      refine ⟨heap, by simp [store], ?_, fun _ _ => rfl, rfl⟩
      rw [hBlock, Heap.overwrite]
      simp
  | cons byte rest =>
      obtain ⟨next, hStore⟩ := Heap.store_exists hBlock hFits
      refine ⟨next, by simp [store, hStore], Heap.store_block_self hBlock hStore,
        fun other hOther => Heap.store_block_of_ne hStore hOther, Heap.store_next hStore⟩

/-- Clearing the end of a block and copying user data there leaves what was
in front, followed by the part of the data that arrived. -/
theorem fill_block {data : List Byte} {copied : Nat} (hBlock : heap.block id = some contents)
    (hFits : offset + data.length ≤ contents.length)
    (hOld : load (.block id) 0 offset heap = .ok old) :
    ∃ cleared filled, memset (.block id) offset 0 data.length heap = .ok cleared ∧
      copyFromUser (.block id) offset data copied cleared = .ok (data.length - copied, filled) ∧
      load (.block id) 0 (offset + (data.take copied).length) filled = .ok (old ++ data.take copied) ∧
      (∀ other, other ≠ id → filled.block other = heap.block other) ∧ filled.next = heap.next ∧
      ∃ after, filled.block id = some after ∧ after.length = contents.length := by
  have hZeros : (List.replicate data.length (0 : Byte)).length = data.length := List.length_replicate
  have hPadded : (data.take copied ++ List.replicate (data.length - copied) (0 : Byte)).length =
      data.length := by
    simp only [List.length_append, List.length_take, List.length_replicate]
    omega
  obtain ⟨cleared, hClear, hCleared, hOther, hNext⟩ :=
    store_block offset (List.replicate data.length 0) hBlock (by omega)
  have hLength := Heap.overwrite_length contents (List.replicate data.length (0 : Byte))
    (hZeros ▸ hFits)
  have hSpace : offset + (data.take copied ++ List.replicate (data.length - copied) (0 : Byte)).length ≤
      (Heap.overwrite contents offset (List.replicate data.length 0)).length := by
    omega
  obtain ⟨filled, hFill, hFilled, hKept, hLast⟩ := store_block _ _ hCleared hSpace
  rw [Heap.overwrite_overwrite (by omega) (by omega)] at hFilled
  have hTake : contents.take offset = old := by
    rcases Nat.eq_zero_or_pos offset with rfl | hOffset
    · simpa using hOld
    · obtain ⟨same, hSame, _, hTaken⟩ := Heap.load_eq_some_iff.mp ((load_block_iff hOffset).mp hOld)
      obtain rfl : contents = same := Option.some.inj (hBlock.symm.trans hSame)
      simpa using hTaken
  refine ⟨cleared, filled, hClear, by simp [copyFromUser, hFill, bind, Except.bind, pure, Except.pure],
    ?_, fun other hNe => (hKept other hNe).trans (hOther other hNe), hLast.trans hNext,
    _, hFilled, Heap.overwrite_length _ _ (by omega)⟩
  rcases Nat.eq_zero_or_pos (offset + (data.take copied).length) with hNone | hSome
  · have hOffset : offset = 0 := by omega
    have hNothing : data.take copied = [] := List.length_eq_zero_iff.mp (by omega)
    rw [hNone, load_zero, ← hTake, hOffset, hNothing]
    rfl
  · refine load_block hSome (Heap.load_eq_some_iff.mpr ⟨_, hFilled, ?_, ?_⟩)
    · rw [Heap.overwrite_length _ _ (by omega)]
      have := List.length_take_le copied data
      simp only [List.length_take] at this ⊢
      omega
    · rw [List.drop_zero, Heap.take_overwrite (by omega) (by simp), hTake,
        List.take_append_of_le_length (Nat.le_refl _), List.take_length]

end Kernel
