import Mathlib.Data.List.Basic

/-! Runs of a machine whose steps are chosen from outside. A step either
answers and moves on, or stops for a stated reason; a run that meets a stop
has no final state, so a completed run never hides a refused step. -/
namespace Execution
universe u v w x y z
variable {Stop : Type u} {Action : Type v} {Reply : Type w} {State : Type x}

/-- One step of the machine under a chosen action. -/
abbrev Machine (Stop : Type u) (Action : Type v) (Reply : Type w) (State : Type x) :=
  Action → State → Except Stop (Reply × State)

/-- Take the actions one after another and keep what each of them answered. -/
def run (step : Machine Stop Action Reply State) :
    List Action → State → Except Stop (List (Action × Reply) × State)
  | [], state => .ok ([], state)
  | action :: rest, state =>
      match step action state with
      | .error stop => .error stop
      | .ok (reply, next) =>
          match run step rest next with
          | .error stop => .error stop
          | .ok (trace, final) => .ok ((action, reply) :: trace, final)

/-- Every step that the run takes meets a condition on its two states. -/
def Along (step : Machine Stop Action Reply State) (allowed : State → Action → State → Prop) :
    List Action → State → Prop
  | [], _ => True
  | action :: rest, state =>
      match step action state with
      | .error _ => True
      | .ok (_, next) => allowed state action next ∧ Along step allowed rest next

variable {step : Machine Stop Action Reply State} {allowed : State → Action → State → Prop}
  {action : Action} {actions rest first second : List Action} {state next final : State}
  {reply : Reply} {trace : List (Action × Reply)}

/-- A sequence that returns is one whose parts return. -/
theorem bind_ok_iff {α β : Type v} {first : Except Stop α} {rest : α → Except Stop β} {result : β} :
    first >>= rest = .ok result ↔ ∃ value, first = .ok value ∧ rest value = .ok result := by
  cases first with
  | error stop => simp [bind, Except.bind]
  | ok value => simp [bind, Except.bind]

/-- A sequence stops in its first part or in the rest. -/
theorem bind_error_iff {α β : Type v} {first : Except Stop α} {rest : α → Except Stop β} {stop : Stop} :
    first >>= rest = .error stop ↔
      first = .error stop ∨ ∃ value, first = .ok value ∧ rest value = .error stop := by
  cases first with
  | error reason => simp [bind, Except.bind]
  | ok value => simp [bind, Except.bind]

@[simp] theorem run_nil : run step [] state = .ok ([], state) := rfl

@[simp] theorem along_nil : Along step allowed [] state := trivial

/-- A completed run is a completed step followed by a completed run. -/
theorem run_cons_ok_iff :
    run step (action :: rest) state = .ok (trace, final) ↔
      ∃ reply next tail, step action state = .ok (reply, next) ∧
        run step rest next = .ok (tail, final) ∧ trace = (action, reply) :: tail := by
  constructor
  · intro h
    rw [run] at h
    split at h
    · cases h
    · next reply next hStep =>
      split at h
      · cases h
      · next tail last hTail =>
        simp only [Except.ok.injEq, Prod.mk.injEq] at h
        obtain ⟨rfl, rfl⟩ := h
        exact ⟨reply, next, tail, hStep, hTail, rfl⟩
  · rintro ⟨reply, next, tail, hStep, hTail, rfl⟩
    simp only [run, hStep, hTail]

theorem run_cons_of_ok (hStep : step action state = .ok (reply, next))
    (hRest : run step rest next = .ok (trace, final)) :
    run step (action :: rest) state = .ok ((action, reply) :: trace, final) :=
  run_cons_ok_iff.mpr ⟨reply, next, trace, hStep, hRest, rfl⟩

theorem along_cons_of_ok (hStep : step action state = .ok (reply, next)) :
    Along step allowed (action :: rest) state ↔
      allowed state action next ∧ Along step allowed rest next := by
  simp only [Along, hStep]

/-- Runs compose: the second one starts where the first one ended. -/
theorem run_append_ok_iff :
    run step (first ++ second) state = .ok (trace, final) ↔
      ∃ before middle after, run step first state = .ok (before, middle) ∧
        run step second middle = .ok (after, final) ∧ trace = before ++ after := by
  induction first generalizing state trace with
  | nil => simp
  | cons action rest ih =>
      rw [List.cons_append, run_cons_ok_iff]
      constructor
      · rintro ⟨reply, next, tail, hStep, hTail, rfl⟩
        obtain ⟨before, middle, after, hFirst, hSecond, rfl⟩ := ih.mp hTail
        exact ⟨(action, reply) :: before, middle, after, run_cons_of_ok hStep hFirst, hSecond, rfl⟩
      · rintro ⟨before, middle, after, hFirst, hSecond, rfl⟩
        obtain ⟨reply, next, tail, hStep, hTail, rfl⟩ := run_cons_ok_iff.mp hFirst
        exact ⟨reply, next, tail ++ after, hStep, ih.mpr ⟨tail, middle, after, hTail, hSecond, rfl⟩, rfl⟩

/-- The trace of a completed run records exactly the actions it was given. -/
theorem trace_actions (hRun : run step actions state = .ok (trace, final)) :
    trace.map Prod.fst = actions := by
  induction actions generalizing state trace with
  | nil =>
      simp only [run_nil, Except.ok.injEq, Prod.mk.injEq] at hRun
      rw [← hRun.1, List.map_nil]
  | cons action rest ih =>
      obtain ⟨reply, next, tail, _, hTail, rfl⟩ := run_cons_ok_iff.mp hRun
      rw [List.map_cons, ih hTail]

/-- One more step goes on from where a run ended. -/
theorem run_concat_of_ok (hRun : run step actions state = .ok (trace, next))
    (hStep : step action next = .ok (reply, final)) :
    run step (actions ++ [action]) state = .ok (trace ++ [(action, reply)], final) :=
  run_append_ok_iff.mpr ⟨trace, next, _, hRun, run_cons_of_ok hStep run_nil, rfl⟩

/-- An event in a trace is a step that the run took from where the events
before it lead. -/
theorem run_split {before after : List (Action × Reply)}
    (hRun : run step actions state = .ok (before ++ (action, reply) :: after, final)) :
    ∃ middle next, run step (before.map Prod.fst) state = .ok (before, middle) ∧
      step action middle = .ok (reply, next) := by
  have hActions : actions = before.map Prod.fst ++ action :: after.map Prod.fst := by
    rw [← trace_actions hRun, List.map_append, List.map_cons]
  rw [hActions] at hRun
  obtain ⟨trace, middle, tail, hBefore, hRest, hSplit⟩ := run_append_ok_iff.mp hRun
  obtain ⟨answer, next, _, hStep, _, rfl⟩ := run_cons_ok_iff.mp hRest
  have hLength : before.length = trace.length := by
    simpa using (congrArg List.length (trace_actions hBefore)).symm
  obtain ⟨rfl, hEvents⟩ := List.append_inj hSplit hLength
  obtain ⟨hEvent, _⟩ := List.cons.inj hEvents
  cases hEvent
  exact ⟨middle, next, hBefore, hStep⟩

/-- A run goes on behind a part of its trace from where that part leads. -/
theorem run_resume {before after : List (Action × Reply)}
    (hRun : run step actions state = .ok (before ++ after, final)) :
    ∃ middle, run step (before.map Prod.fst) state = .ok (before, middle) ∧
      run step (after.map Prod.fst) middle = .ok (after, final) := by
  have hActions : actions = before.map Prod.fst ++ after.map Prod.fst := by
    rw [← trace_actions hRun, List.map_append]
  rw [hActions] at hRun
  obtain ⟨first, middle, second, hBefore, hAfter, hSplit⟩ := run_append_ok_iff.mp hRun
  have hLength : before.length = first.length := by
    simpa using (congrArg List.length (trace_actions hBefore)).symm
  obtain ⟨rfl, rfl⟩ := List.append_inj hSplit hLength
  exact ⟨middle, hBefore, hAfter⟩

/-- The induction rule of runs: a property of history and state that every
allowed step extends holds at the end of a run whose steps are allowed. -/
theorem run_induct (motive : List (Action × Reply) → State → Prop)
    (hStep : ∀ history state action reply next, motive history state →
      step action state = .ok (reply, next) → allowed state action next →
      motive (history ++ [(action, reply)]) next)
    (history : List (Action × Reply)) (hStart : motive history state)
    (hAlong : Along step allowed actions state)
    (hRun : run step actions state = .ok (trace, final)) :
    motive (history ++ trace) final := by
  induction actions generalizing history state trace with
  | nil =>
      simp only [run_nil, Except.ok.injEq, Prod.mk.injEq] at hRun
      obtain ⟨rfl, rfl⟩ := hRun
      simpa using hStart
  | cons action rest ih =>
      obtain ⟨reply, next, tail, hFirst, hTail, rfl⟩ := run_cons_ok_iff.mp hRun
      obtain ⟨hAllowed, hRest⟩ := (along_cons_of_ok hFirst).mp hAlong
      have hNext := hStep history state action reply next hStart hFirst hAllowed
      simpa using ih _ hNext hRest hTail

/-- A run whose every step leaves less to do is no longer than what there was
to do. What is left is a relation, so it may depend on more than the state. -/
theorem run_length_le (left : State → Nat → Prop)
    (hStep : ∀ state action reply next count, left state count → step action state = .ok (reply, next) →
      allowed state action next → ∃ less, less < count ∧ left next less)
    {count : Nat} (hStart : left state count) (hAlong : Along step allowed actions state)
    (hRun : run step actions state = .ok (trace, final)) :
    ∃ less, actions.length + less ≤ count ∧ left final less := by
  induction actions generalizing state trace count with
  | nil =>
      cases hRun
      exact ⟨count, by simp, hStart⟩
  | cons action rest ih =>
      obtain ⟨reply, next, tail, hFirst, hTail, rfl⟩ := run_cons_ok_iff.mp hRun
      obtain ⟨hAllowed, hRest⟩ := (along_cons_of_ok hFirst).mp hAlong
      obtain ⟨less, hLess, hNext⟩ := hStep state action reply next count hStart hFirst hAllowed
      obtain ⟨least, hLeast, hFinal⟩ := ih hNext hRest hTail
      refine ⟨least, ?_, hFinal⟩
      rw [List.length_cons]
      omega

theorem along_true : Along step (fun _ _ _ => True) actions state := by
  induction actions generalizing state with
  | nil => trivial
  | cons action rest ih =>
      unfold Along
      split
      · trivial
      · exact ⟨trivial, ih⟩

/-- A run keeps a condition exactly when each of its steps does, reached by
the steps before it. -/
theorem along_iff_split : Along step allowed actions state ↔
    ∀ before action after trace middle reply next, actions = before ++ action :: after →
      run step before state = .ok (trace, middle) → step action middle = .ok (reply, next) →
      allowed middle action next := by
  induction actions generalizing state with
  | nil => simp
  | cons action rest ih =>
      constructor
      · intro hAlong before
        cases before with
        | nil =>
            intro first after trace middle reply next hActions hRun hStep
            obtain ⟨rfl, rfl⟩ := List.cons.inj hActions
            cases hRun
            exact ((along_cons_of_ok hStep).mp hAlong).1
        | cons first before =>
            intro last after trace middle reply next hActions hRun hStep
            obtain ⟨rfl, hRest⟩ := List.cons.inj hActions
            obtain ⟨_, state, _, hFirst, hBefore, _⟩ := run_cons_ok_iff.mp hRun
            exact ih.mp ((along_cons_of_ok hFirst).mp hAlong).2 before last after _ middle reply next
              hRest hBefore hStep
      · intro hSteps
        cases hStep : step action state with
        | error stop => simp only [Along, hStep]
        | ok result =>
            rw [along_cons_of_ok hStep]
            refine ⟨hSteps [] action rest [] state _ _ rfl rfl hStep, ih.mpr ?_⟩
            intro before last after trace middle reply next hRest hRun hLast
            exact hSteps (action :: before) last after _ middle reply next (by rw [hRest]; rfl)
              (run_cons_of_ok hStep hRun) hLast

/-- What keeps a condition on a run keeps it on every run it goes on from. -/
theorem along_of_append (h : Along step allowed (first ++ second) state) :
    Along step allowed first state := by
  rw [along_iff_split] at h ⊢
  intro before action after trace middle reply next hActions
  exact h before action (after ++ second) trace middle reply next (by rw [hActions]; simp)

theorem along_and_mem {admissible : Action → Prop} (h : Along step allowed actions state)
    (hActions : ∀ action ∈ actions, admissible action) :
    Along step (fun state action next => allowed state action next ∧ admissible action) actions state := by
  rw [along_iff_split] at h ⊢
  intro before action after trace middle reply next hSplit hRun hStep
  exact ⟨h before action after trace middle reply next hSplit hRun hStep,
    hActions action (by rw [hSplit]; simp)⟩

/-- A run that stops has reached the state that its last step stops in. -/
theorem run_error {stop : Stop} (h : run step actions state = .error stop) :
    ∃ before action after trace middle, actions = before ++ action :: after ∧
      run step before state = .ok (trace, middle) ∧ step action middle = .error stop := by
  induction actions generalizing state with
  | nil => cases h
  | cons action rest ih =>
      cases hStep : step action state with
      | error reason =>
          simp only [run, hStep, Except.error.injEq] at h
          exact ⟨[], action, rest, [], state, rfl, rfl, h ▸ hStep⟩
      | ok result =>
          have hRest : run step rest result.2 = .error stop := by
            simp only [run, hStep] at h
            split at h
            · next reason hReason => rw [hReason, Except.error.inj h]
            · cases h
          obtain ⟨before, last, after, trace, middle, rfl, hBefore, hLast⟩ := ih hRest
          exact ⟨action :: before, last, after, _, middle, rfl, run_cons_of_ok hStep hBefore, hLast⟩

/-- A run of steps that are all possible completes. The motive may follow
the history, so the answers of the run are known as well. -/
theorem run_total (motive : List (Action × Reply) → State → Prop)
    (admissible : Action → Prop)
    (hStep : ∀ history state action, admissible action → motive history state →
      ∃ reply next, step action state = .ok (reply, next) ∧
        motive (history ++ [(action, reply)]) next)
    (history : List (Action × Reply)) (hStart : motive history state)
    (hActions : ∀ action ∈ actions, admissible action) :
    ∃ trace final, run step actions state = .ok (trace, final) ∧ motive (history ++ trace) final := by
  induction actions generalizing history state with
  | nil => exact ⟨[], state, rfl, by simpa using hStart⟩
  | cons action rest ih =>
      obtain ⟨reply, next, hOk, hNext⟩ :=
        hStep history state action (hActions action List.mem_cons_self) hStart
      obtain ⟨trace, final, hRun, hFinal⟩ :=
        ih _ hNext fun later hLater => hActions later (List.mem_cons_of_mem action hLater)
      exact ⟨(action, reply) :: trace, final, run_cons_of_ok hOk hRun, by simpa using hFinal⟩

/-- A reason that no step gives from a state with the invariant is never
what ends a run. -/
theorem run_ne_error (invariant : State → Prop) {stop : Stop}
    (hStep : ∀ state action reply next, invariant state →
      step action state = .ok (reply, next) → invariant next)
    (hSafe : ∀ state action, invariant state → step action state ≠ .error stop)
    (hStart : invariant state) : run step actions state ≠ .error stop := by
  induction actions generalizing state with
  | nil => simp
  | cons action rest ih =>
      rw [run]
      split
      · next reason hReason =>
        intro hStop
        exact hSafe state action hStart (hReason.trans (by simpa using hStop))
      · next reply next hOk =>
        have hRest := ih (hStep state action reply next hStart hOk)
        split
        · next reason hReason =>
          intro hStop
          exact hRest (hReason.trans (by simpa using hStop))
        · simp

/-- A machine whose every step is matched by a step of another one runs in
step with it, and their answers match one by one. -/
theorem run_simulation {State' : Type x} {Reply' : Type w} {other : Machine Stop Action Reply' State'}
    (related : State → State' → Prop) (answers : Reply → Reply' → Prop)
    (hStep : ∀ state state' action reply next, related state state' →
      step action state = .ok (reply, next) → ∃ reply' next', other action state' = .ok (reply', next') ∧
        answers reply reply' ∧ related next next')
    {state' : State'} (hStart : related state state')
    (hRun : run step actions state = .ok (trace, final)) :
    ∃ trace' final', run other actions state' = .ok (trace', final') ∧
      List.Forall₂ (fun event event' => answers event.2 event'.2) trace trace' ∧ related final final' := by
  induction actions generalizing state state' trace with
  | nil =>
      simp only [run_nil, Except.ok.injEq, Prod.mk.injEq] at hRun
      obtain ⟨rfl, rfl⟩ := hRun
      exact ⟨[], state', rfl, .nil, hStart⟩
  | cons action rest ih =>
      obtain ⟨reply, next, tail, hFirst, hTail, rfl⟩ := run_cons_ok_iff.mp hRun
      obtain ⟨reply', next', hOther, hAnswer, hNext⟩ := hStep state state' action reply next hStart hFirst
      obtain ⟨trace', final', hRest, hAnswers, hFinal⟩ := ih hNext hTail
      exact ⟨_, final', run_cons_of_ok hOther hRest, .cons hAnswer hAnswers, hFinal⟩

/-- Machines that take the same steps take the same run. -/
theorem run_congr {other : Machine Stop Action Reply State}
    (h : ∀ action ∈ actions, ∀ state, other action state = step action state) :
    run other actions state = run step actions state := by
  induction actions generalizing state with
  | nil => rfl
  | cons action rest ih =>
      have hRest : ∀ state, run other rest state = run step rest state := fun state =>
        ih fun later hLater => h later (List.mem_cons_of_mem action hLater)
      rw [run, run, h action List.mem_cons_self]
      simp only [hRest]

/-- A machine whose every step is some steps of another one takes, whatever
it does, a run of that one. -/
theorem run_project {Stop' : Type u} {Action' : Type v} {Reply' : Type w} {State' : Type x}
    {other : Machine Stop' Action' Reply' State'} (project : Action → List Action')
    (related : State → State' → Prop)
    (hStep : ∀ state state' action reply next, related state state' → step action state = .ok (reply, next) →
      ∃ trace' next', run other (project action) state' = .ok (trace', next') ∧ related next next')
    {state' : State'} (hStart : related state state') (hRun : run step actions state = .ok (trace, final)) :
    ∃ trace' final', run other (actions.flatMap project) state' = .ok (trace', final') ∧
      related final final' := by
  induction actions generalizing state state' trace with
  | nil =>
      cases hRun
      exact ⟨[], state', rfl, hStart⟩
  | cons action rest ih =>
      obtain ⟨reply, next, tail, hFirst, hTail, rfl⟩ := run_cons_ok_iff.mp hRun
      obtain ⟨before, middle, hBefore, hNext⟩ := hStep state state' action reply next hStart hFirst
      obtain ⟨after, final', hAfter, hFinal⟩ := ih hNext hTail
      exact ⟨before ++ after, final', run_append_ok_iff.mpr ⟨before, middle, after, hBefore, hAfter, rfl⟩,
        hFinal⟩

/-- Two outcomes that look the same from outside: both stop for one reason,
or both answer alike and go on to related states. -/
inductive Agree {Answer : Type y} {State' : Type z} (related : State → State' → Prop) :
    Except Stop (Answer × State) → Except Stop (Answer × State') → Prop where
  | stopped (stop : Stop) : Agree related (.error stop) (.error stop)
  | answered {answer : Answer} {state : State} {state' : State'} (hRelated : related state state') :
      Agree related (.ok (answer, state)) (.ok (answer, state'))

theorem Agree.imp {Answer : Type y} {State' : Type z} {related related' : State → State' → Prop}
    {outcome : Except Stop (Answer × State)} {outcome' : Except Stop (Answer × State')}
    (h : Agree related outcome outcome')
    (hImp : ∀ state state', related state state' → related' state state') :
    Agree related' outcome outcome' := by
  cases h with
  | stopped stop => exact .stopped stop
  | answered hRelated => exact .answered (hImp _ _ hRelated)

/-- Two outcomes that agree with a third one agree with each other. -/
theorem Agree.join {Answer : Type y} {State' : Type z} {Third : Type w} {related : State → Third → Prop}
    {related' : State' → Third → Prop} {outcome : Except Stop (Answer × State)}
    {outcome' : Except Stop (Answer × State')} {third : Except Stop (Answer × Third)}
    (h : Agree related outcome third) (h' : Agree related' outcome' third) :
    Agree (fun state state' => ∃ other, related state other ∧ related' state' other) outcome outcome' := by
  cases h with
  | stopped stop =>
      cases h' with
      | stopped => exact .stopped stop
  | answered hRelated =>
      cases h' with
      | answered hRelated' => exact .answered ⟨_, hRelated, hRelated'⟩

/-- Machines that agree on every step agree on every run. The relation may
depend on the actions that are still to come. -/
theorem run_agree {State' : Type z} {other : Machine Stop Action Reply State'} {state' : State'}
    (related : List Action → State → State' → Prop)
    (hStep : ∀ action rest state state', related (action :: rest) state state' →
      Agree (related rest) (step action state) (other action state'))
    (hStart : related actions state state') :
    Agree (related []) (run step actions state) (run other actions state') := by
  induction actions generalizing state state' with
  | nil => exact .answered hStart
  | cons action rest ih =>
      have hFirst := hStep action rest state state' hStart
      rw [run, run]
      generalize step action state = outcome at hFirst
      generalize other action state' = outcome' at hFirst
      cases hFirst with
      | stopped stop => exact .stopped stop
      | @answered reply next next' hNext =>
          have hRest := ih hNext
          dsimp only
          generalize run step rest next = result at hRest
          generalize run other rest next' = result' at hRest
          cases hRest with
          | stopped stop => exact .stopped stop
          | answered hFinal => exact .answered hFinal

/-- What a run shows to the outside: its answers, or why it stopped. -/
def replies (result : Except Stop (List (Action × Reply) × State)) : Except Stop (List Reply) :=
  result.map fun outcome => outcome.1.map Prod.snd

theorem Agree.replies {State' : Type z} {related : State → State' → Prop}
    {result : Except Stop (List (Action × Reply) × State)}
    {result' : Except Stop (List (Action × Reply) × State')} (h : Agree related result result') :
    replies result = replies result' := by
  cases h with
  | stopped stop => rfl
  | answered hRelated => rfl

theorem replies_run_cons : replies (run step (action :: rest) state) =
    match step action state with
    | .error stop => .error stop
    | .ok (reply, next) => (replies (run step rest next)).map (reply :: ·) := by
  rw [run]
  cases hStep : step action state with
  | error stop => rfl
  | ok result =>
      dsimp only
      cases run step rest result.2 <;> rfl

/-- Machines that agree on actions that are alike give the same answers to
sequences of such actions. -/
theorem replies_agree {Action' : Type y} {State' : Type z} {other : Machine Stop Action' Reply State'}
    {state' : State'} {others : List Action'} (related : State → State' → Prop) (alike : Action → Action' → Prop)
    (hStep : ∀ action action' state state', alike action action' → related state state' →
      Agree related (step action state) (other action' state'))
    (hAlike : List.Forall₂ alike actions others) (hStart : related state state') :
    replies (run step actions state) = replies (run other others state') := by
  induction hAlike generalizing state state' with
  | nil => rfl
  | @cons action action' rest rest' hFirst _ ih =>
      have hAgree := hStep action action' state state' hFirst hStart
      rw [replies_run_cons, replies_run_cons]
      generalize step action state = outcome at hAgree
      generalize other action' state' = outcome' at hAgree
      cases hAgree with
      | stopped stop => rfl
      | answered hNext =>
          dsimp only
          rw [ih hNext]

end Execution
