import Mathlib.Data.List.Basic
import Mathlib.Data.List.TakeDrop

/-! A store of allocated blocks. A block is named by an identifier that is
never used again, so a stale identifier can not be mistaken for a later
allocation, and loads and stores outside a live block have no result. -/
namespace Memory
universe u
variable {β : Type u}

/-- Live blocks by identifier. Identifiers from `next` on are still unused. -/
structure Heap (β : Type u) where
  block : Nat → Option (List β)
  next : Nat
  fresh : ∀ id, next ≤ id → block id = none

namespace Heap

def empty : Heap β := ⟨fun _ => none, 0, fun _ _ => rfl⟩

def Live (heap : Heap β) (id : Nat) : Prop := (heap.block id).isSome = true

instance (heap : Heap β) (id : Nat) : Decidable (heap.Live id) :=
  inferInstanceAs (Decidable (_ = true))

/-- A new block under the identifier `next`. -/
def alloc (heap : Heap β) (contents : List β) : Heap β where
  block := fun id => if id = heap.next then some contents else heap.block id
  next := heap.next + 1
  fresh := by
    intro id hNext
    rw [if_neg (by omega), heap.fresh id (by omega)]

def free (heap : Heap β) (id : Nat) : Heap β where
  block := fun other => if other = id then none else heap.block other
  next := heap.next
  fresh := by
    intro other hNext
    split
    · rfl
    · exact heap.fresh other hNext

/-- Change the contents of one block; a dead block stays dead. -/
def modify (heap : Heap β) (id : Nat) (f : List β → List β) : Heap β where
  block := fun other => if other = id then (heap.block other).map f else heap.block other
  next := heap.next
  fresh := by
    intro other hNext
    rw [heap.fresh other hNext]
    simp

def load (heap : Heap β) (id offset count : Nat) : Option (List β) :=
  match heap.block id with
  | none => none
  | some contents =>
      if offset + count ≤ contents.length then some ((contents.drop offset).take count) else none

/-- The contents with `bytes` written over them from `offset` on. -/
def overwrite (contents : List β) (offset : Nat) (bytes : List β) : List β :=
  contents.take offset ++ bytes ++ contents.drop (offset + bytes.length)

def store (heap : Heap β) (id offset : Nat) (bytes : List β) : Option (Heap β) :=
  match heap.block id with
  | none => none
  | some contents =>
      if offset + bytes.length ≤ contents.length then
        some (heap.modify id fun contents => overwrite contents offset bytes)
      else none

variable {heap next : Heap β} {id other offset count : Nat} {bytes contents old : List β}

theorem block_next : heap.block heap.next = none := heap.fresh heap.next (Nat.le_refl _)

theorem ne_next_of_live (h : heap.Live id) : id ≠ heap.next := by
  rintro rfl
  simp [Live, block_next] at h

theorem live_of_block (h : heap.block id = some contents) : heap.Live id := by
  simp [Live, h]

@[simp] theorem alloc_block_next : (heap.alloc contents).block heap.next = some contents := by
  simp [alloc]

theorem alloc_block_of_live (h : heap.Live id) :
    (heap.alloc contents).block id = heap.block id := by
  simp [alloc, ne_next_of_live h]

theorem free_block_of_ne (h : other ≠ id) : (heap.free id).block other = heap.block other := by
  simp [free, h]

theorem live_alloc : (heap.alloc contents).Live id ↔ id = heap.next ∨ heap.Live id := by
  by_cases hNew : id = heap.next
  · simp [Live, alloc, hNew]
  · simp [Live, alloc, hNew]

theorem live_free : (heap.free id).Live other ↔ heap.Live other ∧ other ≠ id := by
  by_cases hSame : other = id
  · simp [Live, free, hSame]
  · simp [Live, free, hSame]

theorem overwrite_length (contents bytes : List β) (h : offset + bytes.length ≤ contents.length) :
    (overwrite contents offset bytes).length = contents.length := by
  simp only [overwrite, List.length_append, List.length_take, List.length_drop]
  omega

theorem take_overwrite (hStart : offset ≤ contents.length) (hCount : count ≤ bytes.length) :
    (overwrite contents offset bytes).take (offset + count) =
      contents.take offset ++ bytes.take count := by
  have hBefore : (contents.take offset).length = offset := by
    rw [List.length_take]
    omega
  rw [overwrite, List.append_assoc, List.take_append, hBefore, Nat.add_sub_cancel_left,
    List.take_of_length_le (by omega), List.take_append_of_le_length hCount]

/-- Of two stores to the same range only the later one is visible. -/
theorem overwrite_overwrite {first second : List β} (hLength : first.length = second.length)
    (hStart : offset ≤ contents.length) :
    overwrite (overwrite contents offset first) offset second = overwrite contents offset second := by
  have hBefore : (contents.take offset).length = offset := by
    rw [List.length_take]
    omega
  simp only [overwrite, ← hLength, List.append_assoc]
  rw [List.take_append_of_le_length (by omega), List.take_of_length_le (by omega), List.drop_append,
    hBefore, List.drop_of_length_le (by omega : (contents.take offset).length ≤ offset + first.length),
    List.nil_append, Nat.add_sub_cancel_left, List.drop_left]

theorem load_eq_some_iff :
    heap.load id offset count = some bytes ↔
      ∃ contents, heap.block id = some contents ∧ offset + count ≤ contents.length ∧
        (contents.drop offset).take count = bytes := by
  cases hBlock : heap.block id with
  | none => simp [load, hBlock]
  | some contents => simp [load, hBlock]

theorem length_of_load (h : heap.load id offset count = some bytes) : bytes.length = count := by
  obtain ⟨contents, _, hFits, rfl⟩ := load_eq_some_iff.mp h
  simp only [List.length_take, List.length_drop]
  omega

theorem live_of_load (h : heap.load id offset count = some bytes) : heap.Live id := by
  obtain ⟨contents, hBlock, _, _⟩ := load_eq_some_iff.mp h
  exact live_of_block hBlock

/-- A part of what was loaded can be loaded by itself. -/
theorem load_part (h : heap.load id 0 count = some bytes) {start size : Nat}
    (hPart : start + size ≤ count) :
    heap.load id start size = some ((bytes.drop start).take size) := by
  obtain ⟨contents, hBlock, hFits, rfl⟩ := load_eq_some_iff.mp h
  refine load_eq_some_iff.mpr ⟨contents, hBlock, by omega, ?_⟩
  simp only [List.drop_zero, List.drop_take, List.take_take]
  congr 1
  omega

theorem load_congr (h : next.block id = heap.block id) :
    next.load id offset count = heap.load id offset count := by
  simp only [load, h]

theorem store_eq_some_iff :
    heap.store id offset bytes = some next ↔
      ∃ contents, heap.block id = some contents ∧ offset + bytes.length ≤ contents.length ∧
        next = heap.modify id fun contents => overwrite contents offset bytes := by
  cases hBlock : heap.block id with
  | none => simp [store, hBlock]
  | some contents => simp [store, hBlock, eq_comm]

/-- A store changes exactly one block, and keeps its length. -/
theorem store_block_self (hBlock : heap.block id = some contents)
    (h : heap.store id offset bytes = some next) :
    next.block id = some (overwrite contents offset bytes) := by
  obtain ⟨_, _, _, rfl⟩ := store_eq_some_iff.mp h
  simp [modify, hBlock]

theorem store_block_of_ne (h : heap.store id offset bytes = some next) (hOther : other ≠ id) :
    next.block other = heap.block other := by
  obtain ⟨_, _, _, rfl⟩ := store_eq_some_iff.mp h
  simp [modify, hOther]

theorem live_store (h : heap.store id offset bytes = some next) : next.Live other ↔ heap.Live other := by
  by_cases hSame : other = id
  · subst hSame
    obtain ⟨contents, hBlock, _, _⟩ := store_eq_some_iff.mp h
    simp [Live, store_block_self hBlock h, hBlock]
  · simp [Live, store_block_of_ne h hSame]

theorem store_next (h : heap.store id offset bytes = some next) : next.next = heap.next := by
  obtain ⟨_, _, _, rfl⟩ := store_eq_some_iff.mp h
  rfl

theorem store_exists (hBlock : heap.block id = some contents)
    (hFits : offset + bytes.length ≤ contents.length) :
    ∃ next, heap.store id offset bytes = some next :=
  ⟨_, store_eq_some_iff.mpr ⟨contents, hBlock, hFits, rfl⟩⟩

end Heap
end Memory
