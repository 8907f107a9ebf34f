import Mathlib.Data.List.Basic
import Mathlib.Algebra.BigOperators.Group.List.Basic
import Mathlib.Algebra.Ring.Nat

/-! Positions in a concatenation of segments. A flat position names one
segment and an offset inside it, or lies at or behind the end. -/
namespace Segments
universe u
variable {β : Type u}

/-- The segment that a flat position falls in, and the offset inside it. -/
def locate : List Nat → Nat → Option (Nat × Nat)
  | [], _ => none
  | size :: rest, position =>
      if position < size then some (0, position)
      else (locate rest (position - size)).map fun found => (found.1 + 1, found.2)

variable {sizes : List Nat} {segments : List (List β)} {position index offset : Nat}

theorem locate_eq_none_iff : locate sizes position = none ↔ sizes.sum ≤ position := by
  induction sizes generalizing position with
  | nil => simp [locate]
  | cons size rest ih =>
      rw [locate, List.sum_cons]
      split
      · simp
        omega
      · rw [Option.map_eq_none_iff, ih]
        omega

theorem locate_eq_some_iff :
    locate sizes position = some (index, offset) ↔
      ∃ h : index < sizes.length, offset < sizes[index] ∧
        (sizes.take index).sum + offset = position := by
  induction sizes generalizing position index with
  | nil => simp [locate]
  | cons size rest ih =>
      rw [locate]
      cases index with
      | zero =>
          split
          · simp
            omega
          · simp
            omega
      | succ index =>
          split
          · simp
            omega
          · next hBehind =>
            have hShift : ∀ found : Nat × Nat, (found.1 + 1, found.2) = (index + 1, offset) ↔
                found = (index, offset) := by
              rintro ⟨i, r⟩
              simp
            simp only [Option.map_eq_some_iff, hShift, exists_eq_right, ih, List.length_cons,
              Nat.add_lt_add_iff_right, List.getElem_cons_succ, List.take_succ_cons, List.sum_cons]
            constructor
            · rintro ⟨hIndex, hOffset, hSum⟩
              exact ⟨hIndex, hOffset, by omega⟩
            · rintro ⟨hIndex, hOffset, hSum⟩
              exact ⟨hIndex, hOffset, by omega⟩

theorem lt_sum_of_locate (h : locate sizes position = some (index, offset)) : position < sizes.sum := by
  refine Nat.lt_of_not_le fun hEnd => ?_
  rw [locate_eq_none_iff.mpr hEnd] at h
  cases h

/-- Behind a located position come the rest of its segment and the later
segments, in order. -/
theorem drop_flatten_of_locate
    (h : locate (segments.map List.length) position = some (index, offset)) :
    ∃ hIndex : index < segments.length, offset < segments[index].length ∧
      segments.flatten.drop position =
        segments[index].drop offset ++ (segments.drop (index + 1)).flatten := by
  induction segments generalizing position index with
  | nil => simp [locate] at h
  | cons segment rest ih =>
      rw [List.map_cons, locate] at h
      split at h
      · next hInside =>
        simp only [Option.some.injEq, Prod.mk.injEq] at h
        obtain ⟨rfl, rfl⟩ := h
        refine ⟨by simp, by simpa using hInside, ?_⟩
        simp [List.drop_append_of_le_length (Nat.le_of_lt hInside)]
      · next hBehind =>
        obtain ⟨⟨i, r⟩, hRest, hFound⟩ := Option.map_eq_some_iff.mp h
        simp only [Prod.mk.injEq] at hFound
        obtain ⟨rfl, rfl⟩ := hFound
        obtain ⟨hIndex, hOffset, hDrop⟩ := ih hRest
        refine ⟨by simpa using hIndex, by simpa using hOffset, ?_⟩
        rw [List.flatten_cons, List.drop_append, List.drop_eq_nil_of_le (by omega), hDrop]
        simp

theorem sum_map_length : (segments.map List.length).sum = segments.flatten.length := by
  simp [List.length_flatten]

/-- What is left of the segment that a flat position falls in. -/
def rest : List (List β) → Nat → List β
  | [], _ => []
  | segment :: later, position =>
      if position < segment.length then segment.drop position else rest later (position - segment.length)

theorem rest_of_locate (h : locate (segments.map List.length) position = some (index, offset)) :
    ∃ hIndex : index < segments.length, rest segments position = segments[index].drop offset := by
  induction segments generalizing position index with
  | nil => simp [locate] at h
  | cons segment later ih =>
      rw [List.map_cons, locate] at h
      rw [rest]
      split at h
      · next hInside =>
        simp only [Option.some.injEq, Prod.mk.injEq] at h
        obtain ⟨rfl, rfl⟩ := h
        exact ⟨by simp, if_pos hInside⟩
      · next hBehind =>
        obtain ⟨⟨i, r⟩, hLater, hFound⟩ := Option.map_eq_some_iff.mp h
        simp only [Prod.mk.injEq] at hFound
        obtain ⟨rfl, rfl⟩ := hFound
        obtain ⟨hIndex, hRest⟩ := ih hLater
        exact ⟨by simpa using hIndex, by rw [if_neg hBehind, hRest]; rfl⟩

theorem rest_of_end (h : segments.flatten.length ≤ position) : rest segments position = [] := by
  induction segments generalizing position with
  | nil => rfl
  | cons segment later ih =>
      rw [List.flatten_cons, List.length_append] at h
      rw [rest, if_neg (by omega)]
      exact ih (by omega)

theorem rest_ne_nil (h : position < segments.flatten.length) : rest segments position ≠ [] := by
  obtain ⟨⟨index, offset⟩, hLocate⟩ : ∃ found, locate (segments.map List.length) position = some found := by
    rw [← Option.isSome_iff_exists, Option.isSome_iff_ne_none, ne_eq, locate_eq_none_iff, sum_map_length]
    omega
  obtain ⟨_, hRest⟩ := rest_of_locate hLocate
  obtain ⟨_, hOffset, _⟩ := drop_flatten_of_locate hLocate
  rw [hRest]
  exact List.ne_nil_of_length_pos (by rw [List.length_drop]; omega)

/-- It is the beginning of what follows in all segments. -/
theorem rest_prefix : rest segments position <+: segments.flatten.drop position := by
  induction segments generalizing position with
  | nil => exact List.nil_prefix
  | cons segment later ih =>
      rw [rest, List.flatten_cons]
      split
      · next hInside =>
        rw [List.drop_append_of_le_length (Nat.le_of_lt hInside)]
        exact List.prefix_append _ _
      · next hBehind =>
        rw [List.drop_append, List.drop_eq_nil_of_le (Nat.le_of_not_lt hBehind), List.nil_append]
        exact ih

/-- Empty segments do not matter. -/
theorem rest_filter : rest (segments.filter (· ≠ [])) position = rest segments position := by
  induction segments generalizing position with
  | nil => rfl
  | cons segment later ih =>
      rw [List.filter_cons]
      split
      · rw [rest, rest, ih]
      · next hEmpty =>
        obtain rfl : segment = [] := by simpa using hEmpty
        rw [ih, rest, List.length_nil, if_neg (Nat.not_lt_zero _), Nat.sub_zero]

/-- The elements from one place up to another. -/
def between (elements : List β) (start stop : Nat) : List β := (elements.take stop).drop start

@[simp] theorem between_self {elements : List β} : between elements position position = [] := by
  rw [between, List.drop_eq_nil_iff]
  exact List.length_take_le _ _

/-- Where one stretch ends the next one begins. -/
theorem between_append {elements : List β} {start middle stop : Nat} (hFirst : start ≤ middle)
    (hSecond : middle ≤ stop) :
    between elements start middle ++ between elements middle stop = between elements start stop := by
  obtain ⟨count, rfl⟩ := Nat.exists_eq_add_of_le hFirst
  have hTake : (elements.take (start + count)).drop start = ((elements.take stop).drop start).take count := by
    rw [List.take_drop, List.take_take, Nat.min_eq_left hSecond]
  rw [between, between, between, hTake, List.drop_take_append_drop]

/-- A piece that comes next at a place is the stretch from there. -/
theorem between_of_prefix {elements piece : List β} (h : piece <+: elements.drop position) :
    between elements position (position + piece.length) = piece := by
  rw [between, ← List.take_drop]
  exact (List.prefix_iff_eq_take.mp h).symm

end Segments
