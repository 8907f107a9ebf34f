import Aesd.Semantics.Memory
import Mathlib.Data.List.Nodup

/-! Singly linked lists in memory. A node is a block of one cell and names the
next one; insertion and removal are what the list macros of C do. There is no
result where a null pointer or a node that is not live is accessed. -/
namespace Linked
open Memory

variable {δ : Type}

structure Node (δ : Type) where
  data : δ
  next : Option Nat

def read (heap : Heap (Node δ)) (pointer : Option Nat) : Option (Node δ) := do
  let id ← pointer
  let cells ← heap.load id 0 1
  cells.head?

def write (heap : Heap (Node δ)) (id : Nat) (node : Node δ) : Option (Heap (Node δ)) :=
  heap.store id 0 [node]

/-- Link a node to the first one and make it the first one. -/
def insertHead (heap : Heap (Node δ)) (head : Option Nat) (id : Nat) :
    Option (Heap (Node δ) × Option Nat) := do
  let node ← read heap (some id)
  let heap ← write heap id { node with next := head }
  return (heap, some id)

/-- Walk to the node in front of the target, within so many steps. -/
def findBefore (heap : Heap (Node δ)) (target : Nat) : Nat → Option Nat → Option Nat
  | 0, _ => none
  | left + 1, current => do
      let node ← read heap current
      if node.next = some target then current else findBefore heap target left node.next

/-- Link around the target. -/
def remove (heap : Heap (Node δ)) (head : Option Nat) (target left : Nat) :
    Option (Heap (Node δ) × Option Nat) :=
  if head = some target then do
    let node ← read heap head
    return (heap, node.next)
  else do
    let current ← findBefore heap target left head
    let node ← read heap (some current)
    let removed ← read heap node.next
    let heap ← write heap current { node with next := removed.next }
    return (heap, head)

/-- The pointer leads over exactly these nodes to null. -/
def Chain (heap : Heap (Node δ)) : Option Nat → List Nat → Prop
  | pointer, [] => pointer = none
  | pointer, id :: rest => pointer = some id ∧
      ∃ node, heap.block id = some [node] ∧ Chain heap node.next rest

/-- The same nodes are live, and only their links may differ. -/
structure Relinked (heap after : Heap (Node δ)) : Prop where
  data : ∀ id node, heap.block id = some [node] → ∃ link, after.block id = some [⟨node.data, link⟩]
  live : ∀ id, after.Live id ↔ heap.Live id
  next : after.next = heap.next

variable {heap after : Heap (Node δ)} {head pointer : Option Nat} {id target prev left : Nat}
  {node old : Node δ} {ids rest before behind : List Nat}

theorem read_of_block (h : heap.block id = some [node]) : read heap (some id) = some node := by
  simp [read, Heap.load, h]

/-- A node that is written keeps its place, and the other nodes stay. -/
theorem write_of_block (node : Node δ) (h : heap.block id = some [old]) :
    ∃ after, write heap id node = some after ∧ after.block id = some [node] ∧
      (∀ other, other ≠ id → after.block other = heap.block other) ∧ after.next = heap.next ∧
      ∀ other, after.Live other ↔ heap.Live other := by
  obtain ⟨after, hStore⟩ := @Heap.store_exists _ heap id 0 [node] [old] h (by simp)
  refine ⟨after, hStore, ?_, fun other hOther => Heap.store_block_of_ne hStore hOther,
    Heap.store_next hStore, fun other => Heap.live_store hStore⟩
  rw [Heap.store_block_self h hStore]
  simp [Heap.overwrite]

namespace Chain

theorem pointer_eq (h : Chain heap pointer ids) : pointer = ids.head? := by
  cases ids with
  | nil => exact h
  | cons id rest => exact h.1

/-- What the pointer leads over is determined. -/
theorem unique {other : List Nat} (h : Chain heap pointer ids) (hOther : Chain heap pointer other) :
    ids = other := by
  induction ids generalizing pointer other with
  | nil =>
      rw [h] at hOther
      cases other with
      | nil => rfl
      | cons => cases hOther.1
  | cons first rest ih =>
      obtain ⟨rfl, node, hBlock, hRest⟩ := h
      cases other with
      | nil => cases hOther
      | cons second behind =>
          obtain ⟨hFirst, same, hSame, hBehind⟩ := hOther
          cases hFirst
          rw [hBlock] at hSame
          cases hSame
          rw [ih hRest hBehind]

/-- From every node of a chain a pointer leads over those behind it. -/
theorem append (h : Chain heap pointer (before ++ rest)) : ∃ middle, Chain heap middle rest := by
  induction before generalizing pointer with
  | nil => exact ⟨pointer, h⟩
  | cons first before ih =>
      obtain ⟨_, node, _, hRest⟩ := h
      exact ih hRest

/-- A chain that ends never comes to a node twice. -/
theorem nodup (h : Chain heap pointer ids) : ids.Nodup := by
  induction ids generalizing pointer with
  | nil => exact List.nodup_nil
  | cons first rest ih =>
      obtain ⟨hPointer, node, hBlock, hRest⟩ := h
      refine List.nodup_cons.mpr ⟨fun hAgain => ?_, ih hRest⟩
      obtain ⟨before, behind, rfl⟩ := List.append_of_mem hAgain
      obtain ⟨middle, hMiddle⟩ := hRest.append
      have hMiddleFirst : middle = some first := hMiddle.pointer_eq
      have hFirst : Chain heap (some first) (first :: behind) := hMiddleFirst ▸ hMiddle
      have hWhole : Chain heap (some first) (first :: (before ++ first :: behind)) :=
        ⟨rfl, node, hBlock, hRest⟩
      have hLength := congrArg List.length (unique hFirst hWhole)
      simp only [List.length_cons, List.length_append] at hLength
      omega

/-- A chain depends on the links of its own nodes only. -/
theorem congr (h : Chain heap pointer ids) (hLinks : ∀ id ∈ ids, ∀ node, heap.block id = some [node] →
    ∃ data, after.block id = some [⟨data, node.next⟩]) : Chain after pointer ids := by
  induction ids generalizing pointer with
  | nil => exact h
  | cons first rest ih =>
      obtain ⟨hPointer, node, hBlock, hRest⟩ := h
      obtain ⟨data, hAfter⟩ := hLinks first List.mem_cons_self node hBlock
      exact ⟨hPointer, _, hAfter, ih hRest fun id hMem => hLinks id (List.mem_cons_of_mem _ hMem)⟩

theorem of_block_eq (h : Chain heap pointer ids) (hBlocks : ∀ id ∈ ids, after.block id = heap.block id) :
    Chain after pointer ids :=
  h.congr fun id hMem node hBlock => ⟨node.data, (hBlocks id hMem).trans hBlock⟩

/-- The walk comes to the node in front of the target. -/
theorem findBefore_eq (h : Chain heap pointer (before ++ prev :: target :: behind))
    (hTarget : target ∉ before) (hPrev : target ≠ prev) (hLeft : before.length < left) :
    findBefore heap target left pointer = some prev := by
  induction before generalizing pointer left with
  | nil =>
      obtain ⟨left, rfl⟩ : ∃ less, left = less + 1 := ⟨left - 1, by omega⟩
      obtain ⟨rfl, node, hBlock, hRest⟩ := h
      have hNext : node.next = some target := hRest.pointer_eq
      simp [findBefore, read_of_block hBlock, hNext]
  | cons first before ih =>
      obtain ⟨left, rfl⟩ : ∃ less, left = less + 1 := ⟨left - 1, by omega⟩
      obtain ⟨rfl, node, hBlock, hRest⟩ := h
      obtain ⟨hFirst, hBefore⟩ := not_or.mp (mt List.mem_cons.mpr hTarget)
      have hNext : node.next ≠ some target := by
        rw [hRest.pointer_eq]
        cases before with
        | nil => simp [Ne.symm hPrev]
        | cons second before => simpa using fun hSame => hBefore (by simp [hSame])
      rw [List.length_cons] at hLeft
      simp only [findBefore, read_of_block hBlock, bind, Option.bind, hNext, ↓reduceIte]
      exact ih hRest hBefore (by omega)

/-- Around a node that is linked past, the chain goes on. -/
theorem unlink {removed : Node δ} (h : Chain heap pointer (before ++ prev :: target :: behind))
    (hTarget : heap.block target = some [removed])
    (hPrev : after.block prev = some [⟨node.data, removed.next⟩])
    (hOther : ∀ other, other ≠ prev → after.block other = heap.block other) :
    Chain after pointer (before ++ prev :: behind) := by
  have hNodup := h.nodup
  induction before generalizing pointer with
  | nil =>
      obtain ⟨rfl, first, hBlock, _, second, hSecond, hBehind⟩ := h
      rw [hTarget] at hSecond
      cases hSecond
      have hLater : prev ∉ behind :=
        fun hMem => (List.nodup_cons.mp hNodup).1 (List.mem_cons_of_mem _ hMem)
      exact ⟨rfl, _, hPrev, hBehind.of_block_eq fun id hMem => hOther id fun hSame => hLater (hSame ▸ hMem)⟩
  | cons first before ih =>
      obtain ⟨hPointer, first', hBlock, hRest⟩ := h
      obtain ⟨hFirst, hRestNodup⟩ := List.nodup_cons.mp hNodup
      refine ⟨hPointer, first', (hOther first ?_).trans hBlock, ih hRest hRestNodup⟩
      rintro rfl
      exact hFirst (by simp)

/-- A node of the chain is taken out, wherever in the chain it is. -/
theorem remove (h : Chain heap head ids) (hMem : target ∈ ids) (hLeft : ids.length ≤ left) :
    ∃ after first, remove heap head target left = some (after, first) ∧
      Chain after first (ids.erase target) ∧ Relinked heap after := by
  obtain ⟨before, behind, hBefore, hIds, hErase⟩ := List.exists_erase_eq hMem
  rw [hErase]
  rw [hIds] at h hLeft
  rcases List.eq_nil_or_concat before with rfl | ⟨before, prev, rfl⟩
  · obtain ⟨rfl, node, hBlock, hRest⟩ := h
    refine ⟨heap, node.next, by simp [Linked.remove, read_of_block hBlock], hRest, ?_⟩
    exact ⟨fun id same hSame => ⟨same.next, hSame⟩, fun id => Iff.rfl, rfl⟩
  · rw [List.concat_eq_append] at hBefore
    rw [List.concat_append] at h hLeft ⊢
    obtain ⟨hNotBefore, hNotPrev⟩ : target ∉ before ∧ target ≠ prev := by simpa using hBefore
    obtain ⟨middle, _, node, hPrev, hNext, removed, hTarget, _⟩ := h.append
    obtain ⟨after, hWrite, hSelf, hOther, hSame, hLive⟩ := write_of_block ⟨node.data, removed.next⟩ hPrev
    have hHead : head ≠ some target := by
      rw [h.pointer_eq]
      cases before with
      | nil => simpa using Ne.symm hNotPrev
      | cons first before => simpa using fun hFirst => hNotBefore (by simp [hFirst])
    have hWalk : findBefore heap target left head = some prev := by
      refine h.findBefore_eq hNotBefore hNotPrev ?_
      simp only [List.length_append, List.length_cons] at hLeft
      omega
    refine ⟨after, head, ?_, h.unlink hTarget hSelf hOther, ⟨fun id same hBlock => ?_, hLive, hSame⟩⟩
    · simp [Linked.remove, hHead, hWalk, read_of_block hPrev, hNext, read_of_block hTarget, hWrite]
    · by_cases hId : id = prev
      · subst hId
        rw [hPrev] at hBlock
        cases hBlock
        exact ⟨removed.next, hSelf⟩
      · exact ⟨same.next, (hOther id hId).trans hBlock⟩

end Chain
end Linked
