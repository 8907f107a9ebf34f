import Aesd.Semantics.Execution
import Aesd.Semantics.Ring

/-! A queue with room for `capacity` items. Adding to a full queue drops its
oldest item; over a run the dropped items followed by those still in the
queue are all the items that were added, in order. -/
namespace BoundedQueue
universe u v
open Execution
variable {α : Type u} {Stop : Type v}

/-- Add an item; the answer is the item that was dropped. -/
def push (Stop : Type v) (capacity : Nat) : Machine Stop α (Option α) (List α) := fun item queue =>
  if queue.length < capacity then .ok (none, queue ++ [item])
  else .ok (queue.head?, queue.tail ++ [item])

/-- The items that a run dropped, in order. -/
def dropped (trace : List (α × Option α)) : List α := trace.filterMap Prod.snd

variable {capacity : Nat} {item : α} {items queue next final : List α} {reply : Option α}
  {trace : List (α × Option α)}

/-- An addition loses nothing: what it drops was the oldest item. -/
theorem push_conserves (hCapacity : 0 < capacity)
    (hPush : push Stop capacity item queue = .ok (reply, next)) :
    reply.toList ++ next = queue ++ [item] := by
  unfold push at hPush
  split at hPush
  · cases hPush
    simp
  · next hFull =>
    cases hPush
    cases queue with
    | nil => exact absurd hCapacity hFull
    | cons oldest rest => simp

/-- The last items of all those added stay the last ones. -/
theorem push_rtake (hCapacity : 0 < capacity)
    (hPush : push Stop capacity item (items.rtake capacity) = .ok (reply, next)) :
    next = (items ++ [item]).rtake capacity := by
  unfold push at hPush
  rw [Ring.rtake_length] at hPush
  rw [Ring.rtake_concat hCapacity]
  split at hPush
  · cases hPush
    rw [if_pos (by omega)]
  · cases hPush
    rw [if_neg (by omega)]

theorem run_conserves (hCapacity : 0 < capacity)
    (hRun : run (push Stop capacity) items queue = .ok (trace, final)) :
    dropped trace ++ final = queue ++ items := by
  have hMotive := run_induct (fun history state => dropped history ++ state =
    queue ++ history.map Prod.fst) ?_ [] (by simp [dropped]) along_true hRun
  · simpa [trace_actions hRun] using hMotive
  · intro history state item reply next hState hPush _
    have hStep := push_conserves hCapacity hPush
    rw [dropped, List.filterMap_append, List.append_assoc, List.map_append, ← List.append_assoc queue,
      ← hState, List.append_assoc (dropped history), List.map_singleton, ← hStep, dropped]
    cases reply <;> simp

theorem run_rtake (hCapacity : 0 < capacity)
    (hRun : run (push Stop capacity) items [] = .ok (trace, final)) :
    final = items.rtake capacity := by
  have hMotive := run_induct (fun history state => state = (history.map Prod.fst).rtake capacity) ?_ []
    (by simp) along_true hRun
  · simpa [trace_actions hRun] using hMotive
  · intro history state item reply next hState hPush _
    rw [hState] at hPush
    rw [push_rtake hCapacity hPush, List.map_append, List.map_singleton]

end BoundedQueue
