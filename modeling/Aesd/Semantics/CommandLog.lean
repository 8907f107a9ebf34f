import Mathlib.Data.List.Basic

/-! A log that is fed in pieces and cut at the pieces that complete a
command. What is pending has no mark; once a piece brings one, everything
pending becomes a single command. -/
namespace CommandLog
universe u
variable {α : Type u} [DecidableEq α]

/-- Commands in the order of their completion and the unfinished rest. -/
structure Log (mark : α) where
  commands : List (List α)
  pending : List α
  complete : ∀ command ∈ commands, mark ∈ command
  unfinished : mark ∉ pending

namespace Log
variable {mark : α}

omit [DecidableEq α] in
@[ext] theorem ext {first second : Log mark} (hCommands : first.commands = second.commands)
    (hPending : first.pending = second.pending) : first = second := by
  cases first
  cases second
  simp_all

def empty : Log mark := ⟨[], [], by simp, by simp⟩

def accept (log : Log mark) (piece : List α) : Log mark :=
  if h : mark ∈ log.pending ++ piece then
    { commands := log.commands ++ [log.pending ++ piece]
      pending := []
      complete := by
        intro command hCommand
        rcases List.mem_append.mp hCommand with hOld | hNew
        · exact log.complete command hOld
        · exact List.mem_singleton.mp hNew ▸ h
      unfinished := by simp }
  else
    { commands := log.commands
      pending := log.pending ++ piece
      complete := log.complete
      unfinished := h }

def acceptAll (log : Log mark) (pieces : List (List α)) : Log mark := pieces.foldl accept log

/-- Everything accepted so far, in order. -/
def contents (log : Log mark) : List α := log.commands.flatten ++ log.pending

variable {log : Log mark} {piece first second : List α} {pieces : List (List α)}

theorem accept_of_mem (h : mark ∈ log.pending ++ piece) :
    (log.accept piece).commands = log.commands ++ [log.pending ++ piece] ∧
      (log.accept piece).pending = [] := by
  rw [accept, dif_pos h]
  exact ⟨rfl, rfl⟩

theorem accept_of_not_mem (h : mark ∉ log.pending ++ piece) :
    (log.accept piece).commands = log.commands ∧ (log.accept piece).pending = log.pending ++ piece := by
  rw [accept, dif_neg h]
  exact ⟨rfl, rfl⟩

@[simp] theorem accept_nil : log.accept [] = log := by
  have h : mark ∉ log.pending ++ [] := by simpa using log.unfinished
  obtain ⟨hCommands, hPending⟩ := accept_of_not_mem h
  exact ext hCommands (by simpa using hPending)

/-- No element is lost, repeated or moved. -/
theorem contents_accept : (log.accept piece).contents = log.contents ++ piece := by
  by_cases h : mark ∈ log.pending ++ piece
  · obtain ⟨hCommands, hPending⟩ := accept_of_mem h
    simp [contents, hCommands, hPending]
  · obtain ⟨hCommands, hPending⟩ := accept_of_not_mem h
    simp [contents, hCommands, hPending]

theorem contents_acceptAll : (log.acceptAll pieces).contents = log.contents ++ pieces.flatten := by
  induction pieces generalizing log with
  | nil => simp [acceptAll]
  | cons piece rest ih =>
      have hRest : ((log.accept piece).acceptAll rest).contents =
          (log.accept piece).contents ++ rest.flatten := ih
      rw [contents_accept, List.append_assoc] at hRest
      exact hRest

/-- A piece without a mark only delays the next one. -/
theorem accept_accept (h : mark ∉ first) :
    (log.accept first).accept second = log.accept (first ++ second) := by
  have hFirst : mark ∉ log.pending ++ first := by
    simp [log.unfinished, h]
  obtain ⟨hCommands, hPending⟩ := accept_of_not_mem hFirst
  by_cases hSecond : mark ∈ log.pending ++ first ++ second
  · have hLeft := @accept_of_mem _ _ mark (log.accept first) second (by rwa [hPending])
    have hRight := @accept_of_mem _ _ mark log (first ++ second) (by rwa [← List.append_assoc])
    apply ext
    · rw [hLeft.1, hRight.1, hCommands, hPending, List.append_assoc]
    · rw [hLeft.2, hRight.2]
  · have hLeft := @accept_of_not_mem _ _ mark (log.accept first) second (by rwa [hPending])
    have hRight := @accept_of_not_mem _ _ mark log (first ++ second) (by rwa [← List.append_assoc])
    apply ext
    · rw [hLeft.1, hRight.1, hCommands]
    · rw [hLeft.2, hRight.2, hPending, List.append_assoc]

/-- Pieces that each bring a mark are the commands themselves. -/
theorem acceptAll_whole (hPending : log.pending = []) (h : ∀ piece ∈ pieces, mark ∈ piece) :
    (log.acceptAll pieces).commands = log.commands ++ pieces ∧ (log.acceptAll pieces).pending = [] := by
  induction pieces generalizing log with
  | nil => exact ⟨(List.append_nil _).symm, hPending⟩
  | cons piece rest ih =>
      have hMark : mark ∈ log.pending ++ piece :=
        List.mem_append_right _ (h piece List.mem_cons_self)
      obtain ⟨hCommands, hNone⟩ := accept_of_mem hMark
      obtain ⟨hRest, hEnd⟩ := ih hNone fun later hLater => h later (List.mem_cons_of_mem _ hLater)
      refine ⟨?_, hEnd⟩
      calc (log.acceptAll (piece :: rest)).commands
          = (log.accept piece).commands ++ rest := hRest
        _ = log.commands ++ piece :: rest := by rw [hCommands, hPending]; simp

/-- The mark stands nowhere but at the end. -/
def Closes (mark : α) (piece : List α) : Prop := mark ∉ piece.dropLast

instance (piece : List α) : Decidable (Closes mark piece) :=
  inferInstanceAs (Decidable (_ ∉ _))

/-- Exactly one mark, as the last element. -/
def Terminated (mark : α) (command : List α) : Prop := ∃ body, mark ∉ body ∧ command = body ++ [mark]

/-- A piece that has its mark at the end could have come element by element. -/
theorem accept_eq_acceptAll_singletons (h : Closes mark piece) :
    log.accept piece = log.acceptAll (piece.map fun element => [element]) := by
  induction piece generalizing log with
  | nil => simp [acceptAll]
  | cons element rest ih =>
      cases rest with
      | nil => rfl
      | cons next more =>
          rw [Closes, List.dropLast_cons_cons, List.mem_cons, not_or] at h
          have hElement : mark ∉ [element] := by simpa using h.1
          have hSplit : log.accept (element :: next :: more) =
              (log.accept [element]).accept (next :: more) := (accept_accept hElement).symm
          rw [hSplit, ih h.2]
          rfl

theorem acceptAll_eq_singletons (h : ∀ piece ∈ pieces, Closes mark piece) :
    log.acceptAll pieces = log.acceptAll (pieces.flatten.map fun element => [element]) := by
  induction pieces generalizing log with
  | nil => rfl
  | cons piece rest ih =>
      have hRest : (log.accept piece).acceptAll rest = (log.accept piece).acceptAll
          (rest.flatten.map fun element => [element]) :=
        ih fun later hLater => h later (List.mem_cons_of_mem _ hLater)
      have hPiece : log.accept piece = log.acceptAll (piece.map fun element => [element]) :=
        accept_eq_acceptAll_singletons (h piece List.mem_cons_self)
      calc log.acceptAll (piece :: rest)
          = (log.accept piece).acceptAll rest := rfl
        _ = (log.acceptAll (piece.map fun element => [element])).acceptAll
              (rest.flatten.map fun element => [element]) := by rw [hRest, hPiece]
        _ = log.acceptAll ((piece :: rest).flatten.map fun element => [element]) := by
              simp [acceptAll]

/-- Where marks come last in their pieces, the cutting into pieces is lost. -/
theorem acceptAll_eq_of_flatten {left right : List (List α)}
    (hLeft : ∀ piece ∈ left, Closes mark piece) (hRight : ∀ piece ∈ right, Closes mark piece)
    (h : left.flatten = right.flatten) : log.acceptAll left = log.acceptAll right := by
  rw [acceptAll_eq_singletons hLeft, acceptAll_eq_singletons hRight, h]

theorem accept_terminated (h : Closes mark piece)
    (hLog : ∀ command ∈ log.commands, Terminated mark command) :
    ∀ command ∈ (log.accept piece).commands, Terminated mark command := by
  by_cases hMark : mark ∈ log.pending ++ piece
  · rw [(accept_of_mem hMark).1]
    intro command hCommand
    rcases List.mem_append.mp hCommand with hOld | hNew
    · exact hLog command hOld
    · obtain rfl := List.mem_singleton.mp hNew
      have hPiece : mark ∈ piece := (List.mem_append.mp hMark).resolve_left log.unfinished
      obtain ⟨body, hBody⟩ : ∃ body, piece = body ++ [mark] := by
        rcases List.eq_nil_or_concat piece with rfl | ⟨body, last, rfl⟩
        · cases hPiece
        · rw [Closes, List.concat_eq_append, List.dropLast_concat] at h
          simp only [List.concat_eq_append, List.mem_append, List.mem_singleton] at hPiece
          exact ⟨body, by rw [List.concat_eq_append, hPiece.resolve_left h]⟩
      rw [Closes, hBody, List.dropLast_concat] at h
      exact ⟨log.pending ++ body, by simp [log.unfinished, h], by rw [hBody, List.append_assoc]⟩
  · rw [(accept_of_not_mem hMark).1]
    exact hLog

theorem acceptAll_terminated (h : ∀ piece ∈ pieces, Closes mark piece)
    (hLog : ∀ command ∈ log.commands, Terminated mark command) :
    ∀ command ∈ (log.acceptAll pieces).commands, Terminated mark command := by
  induction pieces generalizing log with
  | nil => exact hLog
  | cons piece rest ih =>
      exact ih (fun later hLater => h later (List.mem_cons_of_mem _ hLater))
        (accept_terminated (h piece List.mem_cons_self) hLog)

end Log
end CommandLog
