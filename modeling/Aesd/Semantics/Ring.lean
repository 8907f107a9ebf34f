import Mathlib.Data.List.Basic
import Mathlib.Data.List.DropRight
import Mathlib.Data.List.Rotate

/-! A ring of `capacity` slots that is written round and round. Item number
`k` goes to slot `k % capacity`; what the ring still holds after any number
of items is their last `capacity`, read from the slot of the oldest of them. -/
namespace Ring
universe u v
variable {α : Type u} {γ : Type v}

/-- Each of the last `capacity` items is in the slot of its number. -/
def Holds (capacity : Nat) (slot : Nat → α) (items : List α) : Prop :=
  ∀ number (h : number < items.length), items.length ≤ number + capacity →
    slot (number % capacity) = items[number]

/-- The slots met by walking `count` steps from slot `first`. -/
def window (capacity : Nat) (slot : Nat → α) (first count : Nat) : List α :=
  (List.range count).map fun step => slot ((first + step) % capacity)

variable {capacity first count number length : Nat} {slot next : Nat → α} {items : List α} {item : α}

@[simp] theorem window_length : (window capacity slot first count).length = count := by
  simp [window]

theorem window_getElem {step : Nat} (h : step < (window capacity slot first count).length) :
    (window capacity slot first count)[step] = slot ((first + step) % capacity) := by
  simp [window]

theorem window_map (f : α → γ) :
    (window capacity slot first count).map f = window capacity (f ∘ slot) first count := by
  simp [window]

/-- Going around the whole ring meets every slot, wherever it starts. -/
theorem window_rotate :
    window capacity slot first capacity = (window capacity slot 0 capacity).rotate first := by
  apply List.ext_getElem
  · simp
  · intro step hStep _
    simp [window_getElem, List.getElem_rotate, Nat.add_comm]

theorem rtake_map (f : α → γ) : (items.map f).rtake count = (items.rtake count).map f := by
  simp [List.rtake]

theorem rtake_length : (items.rtake count).length = min items.length count := by
  simp only [List.rtake, List.length_drop]
  omega

/-- The oldest item is lost exactly when the list is already full. -/
theorem rtake_concat (hCapacity : 0 < capacity) :
    (items ++ [item]).rtake capacity =
      if items.length < capacity then items.rtake capacity ++ [item]
      else (items.rtake capacity).tail ++ [item] := by
  simp only [List.rtake, List.length_append, List.length_singleton, List.tail_drop]
  split
  · next hSpace =>
    rw [show items.length + 1 - capacity = 0 by omega, show items.length - capacity = 0 by omega]
    simp
  · next hFull =>
    rw [show items.length + 1 - capacity = items.length - capacity + 1 by omega,
      List.drop_append_of_le_length (by omega)]

/-- Fewer than `capacity` numbers apart, two numbers have different slots. -/
theorem mod_ne_of_lt (hLess : number < length) (hNear : length < number + capacity) :
    number % capacity ≠ length % capacity := by
  intro hSame
  have hDivides : capacity ∣ length - number :=
    Nat.dvd_of_mod_eq_zero (Nat.sub_mod_eq_zero_of_mod_eq hSame.symm)
  have := Nat.le_of_dvd (by omega) hDivides
  omega

/-- Every written slot is that of one of the last `capacity` numbers. -/
theorem number_of_slot {index : Nat} (hIndex : index < capacity) (hWritten : index < length) :
    ∃ number, number < length ∧ length ≤ number + capacity ∧ number % capacity = index := by
  have hRemainder : (length - 1 - index) % capacity < capacity := Nat.mod_lt _ (by omega)
  have hSplit := Nat.div_add_mod (length - 1 - index) capacity
  refine ⟨index + capacity * ((length - 1 - index) / capacity), by omega, by omega, ?_⟩
  rw [Nat.add_mul_mod_self_left, Nat.mod_eq_of_lt hIndex]

theorem holds_nil : Holds capacity slot [] := fun _ h => absurd h (Nat.not_lt_zero _)

theorem Holds.map (f : α → γ) (h : Holds capacity slot items) :
    Holds capacity (f ∘ slot) (items.map f) := by
  intro number hNumber hNear
  have hLess : number < items.length := by simpa using hNumber
  rw [Function.comp_apply, h number hLess (by simpa using hNear), List.getElem_map]

/-- Writing the next item into its slot keeps the others in theirs. -/
theorem Holds.push (h : Holds capacity slot items)
    (hItem : next (items.length % capacity) = item)
    (hOther : ∀ index, index ≠ items.length % capacity → next index = slot index) :
    Holds capacity next (items ++ [item]) := by
  intro number hNumber hNear
  rw [List.length_append, List.length_singleton] at hNumber hNear
  rcases Nat.lt_succ_iff_lt_or_eq.mp hNumber with hOld | rfl
  · rw [hOther _ (mod_ne_of_lt hOld (by omega)), h number hOld (by omega),
      List.getElem_append_left hOld]
  · rw [hItem]
    simp

/-- The walk from the oldest slot meets the last `capacity` items in order. -/
theorem Holds.window (h : Holds capacity slot items) :
    window capacity slot ((items.length - capacity) % capacity) (min items.length capacity) =
      items.rtake capacity := by
  apply List.ext_getElem
  · rw [window_length, rtake_length]
  · intro step hStep hTake
    rw [window_length] at hStep
    rw [window_getElem, Nat.mod_add_mod, h (items.length - capacity + step) (by omega) (by omega)]
    simp [List.rtake]

/-- The last `capacity` items in the order of their slots. -/
def bySlot (capacity : Nat) (items : List α) : List α :=
  (items.rtake capacity).rotate
    ((items.rtake capacity).length - (items.length - capacity) % capacity)

theorem bySlot_length : (bySlot capacity items).length = min items.length capacity := by
  rw [bySlot, List.length_rotate, rtake_length]

theorem bySlot_map (f : α → γ) : bySlot capacity (items.map f) = (bySlot capacity items).map f := by
  rw [bySlot, bySlot, rtake_map, List.map_rotate, List.length_map, List.length_map]

/-- Read by slot, the ring holds them in that order. -/
theorem Holds.getElem_bySlot (h : Holds capacity slot items) {index : Nat}
    (hIndex : index < (bySlot capacity items).length) : slot index = (bySlot capacity items)[index] := by
  have hLength := hIndex
  rw [bySlot_length] at hLength
  have hCapacity : 0 < capacity := by omega
  have hOldest : (items.length - capacity) % capacity < capacity := Nat.mod_lt _ hCapacity
  -- the number of the item that the rotation puts there
  obtain ⟨number, hNumber⟩ : ∃ number, number = items.length - capacity +
      (index + (min items.length capacity - (items.length - capacity) % capacity)) %
        min items.length capacity := ⟨_, rfl⟩
  have hStep := Nat.mod_lt (index + (min items.length capacity - (items.length - capacity) % capacity))
    (show 0 < min items.length capacity by omega)
  have hHeld := h number (by omega) (by omega)
  have hSlot : number % capacity = index := by
    rcases Nat.lt_or_ge items.length capacity with hFew | hMany
    · rw [hNumber, Nat.min_eq_left (Nat.le_of_lt hFew), Nat.sub_eq_zero_of_le (Nat.le_of_lt hFew),
        Nat.zero_mod, Nat.sub_zero, Nat.zero_add, Nat.add_mod_right,
        Nat.mod_eq_of_lt (show index < items.length by omega), Nat.mod_eq_of_lt (by omega)]
    · rw [hNumber, Nat.min_eq_right hMany, Nat.add_mod_mod, ← Nat.mod_add_mod, ← Nat.add_assoc,
        Nat.add_comm _ index, Nat.add_assoc, Nat.add_sub_cancel' (Nat.le_of_lt hOldest),
        Nat.add_mod_right, Nat.mod_eq_of_lt (by omega)]
  rw [hSlot] at hHeld
  rw [hHeld]
  simp only [bySlot, List.getElem_rotate, rtake_length]
  simp only [List.rtake, List.getElem_drop, hNumber]

end Ring
