import Mathlib.Data.List.Basic

/-! Lists that are cut at the first element of one kind: the string before
a terminator, the line up to and with its mark. -/
namespace Delimited
universe u
variable {α : Type u} [DecidableEq α]

/-- What stands before the first mark, or everything. -/
def before (mark : α) (list : List α) : List α := list.take (list.idxOf mark)

/-- What stands before the first mark, and the mark itself, or everything. -/
def through (mark : α) (list : List α) : List α := list.take (list.idxOf mark + 1)

variable {mark : α} {list first second : List α}

@[simp] theorem before_length : (before mark list).length = list.idxOf mark := by
  rw [before, List.length_take, Nat.min_eq_left List.idxOf_le_length]

theorem not_mem_before : mark ∉ before mark list := by
  intro hMem
  have hList : mark ∈ list := List.mem_of_mem_take hMem
  exact Nat.lt_irrefl _ ((List.mem_take_iff_idxOf_lt hList).mp hMem)

theorem before_append_of_mem (h : mark ∈ first) : before mark (first ++ second) = before mark first := by
  rw [before, List.idxOf_append_of_mem h, List.take_append_of_le_length List.idxOf_le_length, before]

theorem before_append_of_not_mem (h : mark ∉ first) :
    before mark (first ++ second) = first ++ before mark second := by
  rw [before, List.idxOf_append_of_notMem h, List.take_append, List.take_of_length_le (by omega),
    Nat.add_sub_cancel_left, before]

@[simp] theorem before_cons_self : before mark (mark :: list) = [] := by
  simp [before]

/-- Terminating a string makes it what is before the terminator. -/
theorem before_append_cons (h : mark ∉ first) : before mark (first ++ mark :: second) = first := by
  rw [before_append_of_not_mem h, before_cons_self, List.append_nil]

/-- A cut behind the terminator keeps the string. -/
theorem before_take {count : Nat} (h : list.idxOf mark < count) :
    before mark (list.take count) = before mark list := by
  by_cases hMem : mark ∈ list
  · have hTake : mark ∈ list.take count := (List.mem_take_iff_idxOf_lt hMem).mpr h
    have hIndex := (List.take_prefix count list).idxOf_eq_of_mem hTake
    rw [before, hIndex, List.take_take, Nat.min_eq_left (Nat.le_of_lt h), before]
  · rw [List.idxOf_of_notMem hMem] at h
    rw [List.take_of_length_le (Nat.le_of_lt h)]

theorem through_of_not_mem (h : mark ∉ list) : through mark list = list := by
  rw [through, List.idxOf_of_notMem h, List.take_of_length_le (Nat.le_succ _)]

/-- A line is what stands before its mark, and the mark. -/
theorem through_eq_before (h : mark ∈ list) : through mark list = before mark list ++ [mark] := by
  have hIndex : list.idxOf mark < list.length := List.idxOf_lt_length_of_mem h
  rw [through, before, ← List.take_append_getElem hIndex, List.getElem_idxOf hIndex]

theorem through_append_of_mem (h : mark ∈ first) :
    through mark (first ++ second) = through mark first := by
  rw [through, List.idxOf_append_of_mem h,
    List.take_append_of_le_length (List.idxOf_lt_length_of_mem h), through]

theorem through_append_of_not_mem (h : mark ∉ first) :
    through mark (first ++ second) = first ++ through mark second := by
  rw [through, List.idxOf_append_of_notMem h, List.take_append, List.take_of_length_le (by omega), through]
  congr 2
  omega

end Delimited
