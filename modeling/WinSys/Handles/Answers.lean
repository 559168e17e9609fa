import WinSys.Handles.NameQuery
import WinSys.Infra.Run

/-!
# What the name queries answer, and how the workers end

Between two calls the worker waits with both events reset. In a call it does one query, of the
call's handle, and a worker that is given up has its flags set and a request to wake to.

* `Worker.Resting`, `Worker.Asked`, `Worker.Doomed`: a worker between calls, in a call, given up
* `Held`: the current worker as the caller's position has it, and the other ones
* `names_own_and_workers_exit`
-/

namespace WinSys.Handles

open Infra

/-! ## a worker -/

namespace Worker

variable {w : Worker} {result : QueryResult} {handle : UInt64} {answers : List (UInt64 × WString)}

/-- It waits for a call. -/
structure Resting (w : Worker) : Prop where
  pc : w.pc = .waits
  request : w.request = false
  done : w.done = false
  exit : w.exit = false
  abandoned : w.abandoned = false

/-- How far a worker is with a request, and what it has produced. -/
def Progress (w : Worker) (handle : UInt64) (answers : List (UInt64 × WString)) : Prop :=
  match w.pc with
  | .waits => (w.request = true ∧ w.done = false ∧ answers = [])
    ∨ (w.request = false ∧ w.done = true ∧ answers = [(handle, w.name)])
  | .readsExit | .clears => w.request = false ∧ w.done = false ∧ answers = []
  | .queries => w.request = false ∧ w.done = false ∧ w.name = [] ∧ answers = []
  | .assigns name => w.request = false ∧ w.done = false ∧ answers = [(handle, name)]
  | .readsAbandoned | .signals =>
    w.request = false ∧ w.done = false ∧ answers = [(handle, w.name)]
  | .exited => False

/-- It was asked for a handle's name. -/
structure Asked (w : Worker) (handle : UInt64) (answers : List (UInt64 × WString)) : Prop where
  target : w.target = handle
  exit : w.exit = false
  abandoned : w.abandoned = false
  progress : w.Progress handle answers

/-- Nobody needs it, and it will find that out. -/
structure Doomed (w : Worker) : Prop where
  exit : w.exit = true
  wakes : w.pc = .waits ∨ w.pc = .signals → w.request = true
  abandoned : w.pc ≠ .waits → w.pc ≠ .readsExit → w.pc ≠ .signals → w.pc ≠ .exited →
    w.abandoned = true

/-- The steps a doomed worker has left, a query being one. -/
def remaining (w : Worker) : ℕ :=
  match w.pc with
  | .exited => 0
  | .readsExit | .readsAbandoned => 1
  | .waits | .assigns _ => 2
  | .signals | .queries => 3
  | .clears => 4

/-- What a query leaves, if it is not repeated. -/
theorem query_cases (w : Worker) (size : UInt32) (result : QueryResult) :
    (∃ size', w.query size result = { w with size := size' } ∧ result.final = false)
      ∨ (∃ size', w.query size result = { w with size := size', pc := .readsAbandoned }
        ∧ result.text = [])
      ∨ ∃ size', w.query size result = { w with size := size', pc := .assigns result.text } := by
  cases result with
  | mismatch needed =>
    unfold query
    by_cases hlarge : needed > size
    · exact Or.inl ⟨needed + 64, if_pos hlarge, rfl⟩
    · exact Or.inr (Or.inl ⟨size, if_neg hlarge, rfl⟩)
  | failed => exact Or.inr (Or.inl ⟨size, rfl, rfl⟩)
  | success name =>
    cases name with
    | none => exact Or.inr (Or.inl ⟨size, rfl, rfl⟩)
    | some name => exact Or.inr (Or.inr ⟨size, rfl⟩)

/-- A worker that was asked goes on with the request. -/
theorem Asked.step (h : w.Asked handle answers) : (w.step result).Asked handle
    (if w.pc = .queries ∧ (w.step result).pc ≠ .queries then
      answers ++ [(w.target, result.text)] else answers) := by
  have hprogress := h.progress
  unfold Progress at hprogress
  cases hpc : w.pc with
  | waits =>
    rw [if_neg (by simp)]
    simp only [hpc] at hprogress
    unfold Worker.step
    simp only [hpc]
    rcases hprogress with ⟨hrequest, hdone, hanswers⟩ | ⟨hrequest, hdone, hanswers⟩
    · rw [if_pos hrequest]
      exact ⟨h.target, h.exit, h.abandoned, rfl, hdone, hanswers⟩
    · rw [if_neg (by simp [hrequest])]
      exact h
  | readsExit =>
    rw [if_neg (by simp)]
    simp only [hpc] at hprogress
    unfold Worker.step
    simp only [hpc, h.exit]
    exact ⟨h.target, rfl, h.abandoned, hprogress⟩
  | clears =>
    rw [if_neg (by simp)]
    simp only [hpc] at hprogress
    unfold Worker.step
    simp only [hpc]
    exact ⟨h.target, h.exit, h.abandoned, hprogress.1, hprogress.2.1, rfl, hprogress.2.2⟩
  | queries =>
    simp only [hpc] at hprogress
    obtain ⟨hrequest, hdone, hname, hanswers⟩ := hprogress
    unfold Worker.step
    simp only [hpc, true_and]
    rcases query_cases w (if w.size = 0 then 2048 else w.size) result with
      ⟨size, heq, -⟩ | ⟨size, heq, htext⟩ | ⟨size, heq⟩
    · rw [heq, if_neg (by simp [hpc])]
      refine ⟨h.target, h.exit, h.abandoned, ?_⟩
      simp only [Progress, hpc]
      exact ⟨hrequest, hdone, hname, hanswers⟩
    · rw [heq, if_pos (by simp)]
      refine ⟨h.target, h.exit, h.abandoned, hrequest, hdone, ?_⟩
      simp [hanswers, h.target, htext, hname]
    · rw [heq, if_pos (by simp)]
      refine ⟨h.target, h.exit, h.abandoned, hrequest, hdone, ?_⟩
      simp [hanswers, h.target]
  | assigns name =>
    rw [if_neg (by simp)]
    simp only [hpc] at hprogress
    unfold Worker.step
    simp only [hpc]
    exact ⟨h.target, h.exit, h.abandoned, hprogress⟩
  | readsAbandoned =>
    rw [if_neg (by simp)]
    simp only [hpc] at hprogress
    unfold Worker.step
    simp only [hpc, h.abandoned]
    exact ⟨h.target, h.exit, rfl, hprogress⟩
  | signals =>
    rw [if_neg (by simp)]
    simp only [hpc] at hprogress
    unfold Worker.step
    simp only [hpc]
    exact ⟨h.target, h.exit, h.abandoned, Or.inr ⟨hprogress.1, rfl, hprogress.2.2⟩⟩
  | exited =>
    simp only [hpc] at hprogress

/-- A worker waits for its request. -/
theorem step_of_waits (hpc : w.pc = .waits) (hrequest : w.request = false) :
    w.step result = w := by
  unfold Worker.step
  simp [hpc, hrequest]

theorem Resting.step (h : w.Resting) : w.step result = w :=
  step_of_waits h.pc h.request

/-- The flags are the caller's. -/
theorem step_flags : (w.step result).abandoned = w.abandoned ∧ (w.step result).exit = w.exit := by
  unfold Worker.step
  cases hpc : w.pc with
  | waits =>
    simp only
    split <;> exact ⟨rfl, rfl⟩
  | queries =>
    simp only
    rcases query_cases w (if w.size = 0 then 2048 else w.size) result with
      ⟨size, heq, -⟩ | ⟨size, heq, -⟩ | ⟨size, heq⟩
    all_goals
      rw [heq]
      exact ⟨rfl, rfl⟩
  | _ => exact ⟨rfl, rfl⟩

theorem Doomed.step (h : w.Doomed) : (w.step result).Doomed := by
  have hwakes := h.wakes
  have habandoned := h.abandoned
  unfold Worker.step
  cases hpc : w.pc with
  | waits =>
    have hrequest := hwakes (Or.inl hpc)
    simp only [hrequest, if_true]
    exact ⟨h.exit, by simp, by simp⟩
  | readsExit =>
    simp only [h.exit, if_true]
    exact ⟨rfl, by simp, by simp⟩
  | clears =>
    have hflag := habandoned (by simp [hpc]) (by simp [hpc]) (by simp [hpc]) (by simp [hpc])
    exact ⟨h.exit, by simp, fun _ _ _ _ => hflag⟩
  | queries =>
    have hflag := habandoned (by simp [hpc]) (by simp [hpc]) (by simp [hpc]) (by simp [hpc])
    simp only
    rcases query_cases w (if w.size = 0 then 2048 else w.size) result with
      ⟨size, heq, -⟩ | ⟨size, heq, -⟩ | ⟨size, heq⟩
    · rw [heq]
      exact ⟨h.exit, hwakes, habandoned⟩
    · rw [heq]
      exact ⟨h.exit, by simp, fun _ _ _ _ => hflag⟩
    · rw [heq]
      exact ⟨h.exit, by simp, fun _ _ _ _ => hflag⟩
  | assigns name =>
    have hflag := habandoned (by simp [hpc]) (by simp [hpc]) (by simp [hpc]) (by simp [hpc])
    exact ⟨h.exit, by simp, fun _ _ _ _ => hflag⟩
  | readsAbandoned =>
    have hflag := habandoned (by simp [hpc]) (by simp [hpc]) (by simp [hpc]) (by simp [hpc])
    simp only [hflag, if_true]
    exact ⟨h.exit, by simp, by simp⟩
  | signals =>
    have hrequest := hwakes (Or.inr hpc)
    exact ⟨h.exit, fun _ => hrequest, by simp⟩
  | exited => exact h

/-- Every step of a doomed worker but a repeated query brings it closer to its end. -/
theorem Doomed.remaining_step (h : w.Doomed) : (w.step result).remaining ≤ w.remaining
    ∧ (result.final = true → (w.step result).remaining ≤ w.remaining - 1) := by
  have hwakes := h.wakes
  have habandoned := h.abandoned
  unfold Worker.step remaining
  cases hpc : w.pc with
  | waits => simp [hwakes (Or.inl hpc)]
  | readsExit => simp [h.exit]
  | clears => simp
  | queries =>
    simp only
    rcases query_cases w (if w.size = 0 then 2048 else w.size) result with
      ⟨size, heq, hfinal⟩ | ⟨size, heq, -⟩ | ⟨size, heq⟩
    · rw [heq, hfinal]
      simp [hpc]
    · rw [heq]
      simp
    · rw [heq]
      simp
  | assigns name => simp
  | readsAbandoned => simp [habandoned (by simp [hpc]) (by simp [hpc]) (by simp [hpc]) (by simp [hpc])]
  | signals => simp
  | exited => simp [hpc]

/-- A doomed worker needs nobody. -/
theorem Doomed.enabled (h : w.Doomed) : w.pc = .exited ∨ w.enabled = true := by
  unfold Worker.enabled
  cases hpc : w.pc with
  | waits => exact Or.inr (h.wakes (Or.inl hpc))
  | exited => exact Or.inl rfl
  | readsExit => exact Or.inr rfl
  | clears => exact Or.inr rfl
  | queries => exact Or.inr rfl
  | assigns name => exact Or.inr rfl
  | readsAbandoned => exact Or.inr rfl
  | signals => exact Or.inr rfl

theorem remaining_le : w.remaining ≤ 4 := by
  unfold remaining
  split <;> omega

theorem remaining_eq_zero : w.remaining = 0 ↔ w.pc = .exited := by
  unfold remaining
  split <;> simp_all

end Worker

/-! ## all workers -/

/-- The current worker, by what the caller does next. -/
def Serves (q : ObjectNameQuery) (w : Worker) : Prop :=
  match q.pc with
  | .idle | .destructs => w.Resting
  | .setsTarget => w.Resting ∧ q.answers = []
  | .requests => w.Resting ∧ w.target = q.handle ∧ q.answers = []
  | .waits | .setsAbandoned => w.Asked q.handle q.answers
  | .takesName => w.Resting ∧ q.answers = [(q.handle, w.name)]
  | .setsExit => w.abandoned = true
  | .wakes => w.abandoned = true ∧ w.exit = true
  | .destructorWakes => w.exit = true ∧ w.pc = .waits ∧ w.request = false
  | .resets | .releases => w.Doomed
  | .destroyed => False

structure Held (q : ObjectNameQuery) : Prop where
  current : ∀ i ∈ q.current, i < q.started ∧ Serves q (q.workers i)
  others : ∀ i, i < q.started → q.current ≠ some i → (q.workers i).Doomed

section Steps

variable {q : ObjectNameQuery} {i : ℕ} {result : QueryResult}

theorem Held.start : Held {} where
  current _ h := by cases h
  others _ h := absurd h (Nat.not_lt_zero _)

/-- A worker's step does not change what the caller does with it. -/
theorem Serves.workerStep (h : Serves q (q.workers i)) (hi : q.current = some i) :
    Serves (q.workerStep i result) ((q.workers i).step result) := by
  unfold Serves at h ⊢
  have hpc : (q.workerStep i result).pc = q.pc := rfl
  have hhandle : (q.workerStep i result).handle = q.handle := rfl
  rw [hpc, hhandle]
  have hanswers : (q.workerStep i result).answers
      = if (q.workers i).pc = .queries ∧ ((q.workers i).step result).pc ≠ .queries then
        q.answers ++ [((q.workers i).target, result.text)] else q.answers := by
    simp [ObjectNameQuery.workerStep, hi]
  have hkept : (q.workers i).Resting → (q.workerStep i result).answers = q.answers := by
    intro hrest
    rw [hanswers, if_neg (by simp [hrest.pc])]
  cases hq : q.pc with
  | idle | destructs =>
    simp only [hq] at h
    simp only [h.step]
    exact h
  | setsTarget =>
    simp only [hq] at h
    simp only [h.1.step, hkept h.1]
    exact h
  | requests =>
    simp only [hq] at h
    simp only [h.1.step, hkept h.1]
    exact h
  | waits | setsAbandoned =>
    simp only [hq] at h
    simp only [hanswers]
    exact h.step
  | takesName =>
    simp only [hq] at h
    simp only [h.1.step, hkept h.1]
    exact h
  | setsExit =>
    simp only [hq] at h
    exact Worker.step_flags.1.trans h
  | wakes =>
    simp only [hq] at h
    exact ⟨Worker.step_flags.1.trans h.1, Worker.step_flags.2.trans h.2⟩
  | destructorWakes =>
    simp only [hq] at h
    rw [Worker.step_of_waits h.2.1 h.2.2]
    exact h
  | resets | releases =>
    simp only [hq] at h
    exact h.step
  | destroyed =>
    simp only [hq] at h

@[simp]
theorem setWorker_self (q : ObjectNameQuery) (i : ℕ) (w : Worker) :
    (q.setWorker i w).workers i = w := Function.update_self ..

theorem setWorker_of_ne (q : ObjectNameQuery) {i j : ℕ} (w : Worker) (h : j ≠ i) :
    (q.setWorker i w).workers j = q.workers j := Function.update_of_ne h ..

theorem Held.workerStep (h : Held q) (hi : i < q.started) : Held (q.workerStep i result) := by
  have hself : (q.workerStep i result).workers i = (q.workers i).step result :=
    setWorker_self q i _
  have hother : ∀ j, j ≠ i → (q.workerStep i result).workers j = q.workers j := fun j hj =>
    setWorker_of_ne q _ hj
  constructor
  · intro j hj
    obtain ⟨hlt, hserves⟩ := h.current j hj
    refine ⟨hlt, ?_⟩
    by_cases hji : j = i
    · subst hji
      rw [hself]
      exact hserves.workerStep hj
    · rw [hother j hji]
      have hanswers : (q.workerStep i result).answers = q.answers := by
        have hne : q.current ≠ some i := fun hc => hji (Option.some.inj (hj.symm.trans hc))
        simp [ObjectNameQuery.workerStep, hne]
      have hsame : Serves (q.workerStep i result) (q.workers j) ↔ Serves q (q.workers j) := by
        unfold Serves
        rw [hanswers]
        exact Iff.rfl
      exact hsame.mpr hserves
  · intro j hlt hne
    have hdoomed := h.others j hlt hne
    by_cases hji : j = i
    · subst hji
      rw [hself]
      exact hdoomed.step
    · rw [hother j hji]
      exact hdoomed

/-- The caller's step with its worker. -/
theorem Serves.callerStep {timeout : Bool} (h : Serves q (q.workers i)) :
    (q.callerStep i timeout).started = q.started
      ∧ (∀ j, j ≠ i → (q.callerStep i timeout).workers j = q.workers j)
      ∧ (((q.callerStep i timeout).current = q.current
          ∧ Serves (q.callerStep i timeout) ((q.callerStep i timeout).workers i))
        ∨ ((q.callerStep i timeout).current = none
          ∧ ((q.callerStep i timeout).workers i).Doomed)) := by
  unfold Serves at h
  unfold ObjectNameQuery.callerStep
  cases hq : q.pc with
  | idle =>
    simp only [hq] at h ⊢
    refine ⟨trivial, fun j hj => trivial, Or.inl ⟨trivial, ?_⟩⟩
    simp only [Serves, hq]
    exact h
  | destroyed => simp only [hq] at h
  | setsTarget =>
    simp only [hq] at h
    refine ⟨rfl, fun j hj => setWorker_of_ne q _ hj, Or.inl ⟨rfl, ?_⟩⟩
    simp only [Serves, setWorker_self]
    exact ⟨⟨h.1.pc, h.1.request, h.1.done, h.1.exit, h.1.abandoned⟩, rfl, h.2⟩
  | requests =>
    simp only [hq] at h
    obtain ⟨hrest, htarget, hanswers⟩ := h
    refine ⟨rfl, fun j hj => setWorker_of_ne q _ hj, Or.inl ⟨rfl, ?_⟩⟩
    simp only [Serves, setWorker_self]
    refine ⟨htarget, hrest.exit, hrest.abandoned, ?_⟩
    simp only [Worker.Progress, hrest.pc]
    exact Or.inl ⟨trivial, hrest.done, hanswers⟩
  | waits =>
    simp only [hq] at h ⊢
    by_cases htimeout : timeout = true
    · simp only [htimeout, if_true]
      exact ⟨trivial, fun j hj => trivial, Or.inl ⟨trivial, h⟩⟩
    · rw [if_neg htimeout]
      by_cases hdone : (q.workers i).done = true
      · -- it has signalled, so the answer is in its name
        rw [if_pos hdone]
        refine ⟨rfl, fun j hj => setWorker_of_ne q _ hj, Or.inl ⟨rfl, ?_⟩⟩
        have hprogress := h.progress
        simp only [Serves, setWorker_self]
        unfold Worker.Progress at hprogress
        cases hpc : (q.workers i).pc with
        | waits =>
          simp only [hpc, hdone] at hprogress
          obtain ⟨-, hfalse, -⟩ | ⟨hrequest, -, hanswers⟩ := hprogress
          · cases hfalse
          · exact ⟨⟨rfl, hrequest, rfl, h.exit, h.abandoned⟩, hanswers⟩
        | exited => simp only [hpc] at hprogress
        | _ =>
          simp only [hpc, hdone] at hprogress
          cases hprogress.2.1
      · rw [if_neg hdone]
        refine ⟨rfl, fun j hj => rfl, Or.inl ⟨rfl, ?_⟩⟩
        simp only [Serves, hq]
        exact h
  | takesName =>
    simp only [hq] at h
    refine ⟨rfl, fun j hj => setWorker_of_ne q _ hj, Or.inl ⟨rfl, ?_⟩⟩
    simp only [Serves, setWorker_self]
    exact ⟨h.1.pc, h.1.request, h.1.done, h.1.exit, h.1.abandoned⟩
  | setsAbandoned =>
    refine ⟨rfl, fun j hj => setWorker_of_ne q _ hj, Or.inl ⟨rfl, ?_⟩⟩
    simp only [Serves, setWorker_self]
  | setsExit =>
    simp only [hq] at h
    refine ⟨rfl, fun j hj => setWorker_of_ne q _ hj, Or.inl ⟨rfl, ?_⟩⟩
    simp only [Serves, setWorker_self]
    exact ⟨h, trivial⟩
  | wakes =>
    simp only [hq] at h
    refine ⟨rfl, fun j hj => setWorker_of_ne q _ hj, Or.inl ⟨rfl, ?_⟩⟩
    simp only [Serves, setWorker_self]
    exact ⟨h.2, fun _ => rfl, fun _ _ _ _ => h.1⟩
  | resets =>
    simp only [hq] at h
    exact ⟨rfl, fun j hj => rfl, Or.inr ⟨rfl, h⟩⟩
  | destructs =>
    simp only [hq] at h
    refine ⟨rfl, fun j hj => setWorker_of_ne q _ hj, Or.inl ⟨rfl, ?_⟩⟩
    simp only [Serves, setWorker_self]
    exact ⟨trivial, h.pc, h.request⟩
  | destructorWakes =>
    simp only [hq] at h
    refine ⟨rfl, fun j hj => setWorker_of_ne q _ hj, Or.inl ⟨rfl, ?_⟩⟩
    simp only [Serves, setWorker_self]
    exact ⟨h.1, fun _ => rfl, fun hpc => absurd h.2.1 hpc⟩
  | releases =>
    simp only [hq] at h
    exact ⟨rfl, fun j hj => rfl, Or.inr ⟨rfl, h⟩⟩

theorem Held.callerStep {timeout : Bool} (h : Held q) (hi : q.current = some i) :
    Held (q.callerStep i timeout) := by
  obtain ⟨hlt, hserves⟩ := h.current i hi
  obtain ⟨hstarted, hothers, hstep⟩ := @Serves.callerStep q i timeout hserves
  constructor
  · intro j hj
    rcases hstep with ⟨hcurrent, hnew⟩ | ⟨hnone, -⟩
    · rw [hcurrent] at hj
      obtain rfl := Option.some.inj (hi.symm.trans hj)
      exact ⟨hstarted.symm ▸ hlt, hnew⟩
    · rw [hnone] at hj
      cases hj
  · intro j hj hne
    rw [hstarted] at hj
    by_cases hji : j = i
    · subst hji
      rcases hstep with ⟨hcurrent, -⟩ | ⟨-, hdoomed⟩
      · exact absurd (hcurrent.trans hi) hne
      · exact hdoomed
    · rw [hothers j hji]
      exact h.others j hj fun hc => hji (Option.some.inj (hc.symm.trans hi))

theorem Held.getName {handle : UInt64} {starts : Bool} (h : Held q) (hpc : q.pc = .idle) :
    Held (q.getName handle starts) := by
  cases hcurrent : q.current with
  | some i =>
    obtain ⟨hlt, hserves⟩ := h.current i hcurrent
    have hrest : (q.workers i).Resting := by
      simp only [Serves, hpc] at hserves
      exact hserves
    simp only [ObjectNameQuery.getName, hcurrent]
    constructor
    · intro j hj
      obtain rfl := Option.some.inj hj
      exact ⟨hlt, hrest, rfl⟩
    · exact fun j hj hne => h.others j hj (by rw [hcurrent]; exact hne)
  | none =>
    cases starts with
    | false =>
      simp only [ObjectNameQuery.getName, hcurrent]
      exact h
    | true =>
      simp only [ObjectNameQuery.getName, hcurrent, if_true]
      constructor
      · intro j hj
        obtain rfl := Option.some.inj hj
        refine ⟨Nat.lt_succ_self _, ?_⟩
        simp only [Serves, setWorker_self]
        exact ⟨⟨rfl, rfl, rfl, rfl, rfl⟩, trivial⟩
      · intro j hj hne
        have hnew : j ≠ q.started := fun heq => hne (by rw [heq])
        simp only [setWorker_of_ne q _ hnew]
        have hlt : j < q.started := by
          have hle := Nat.lt_succ_iff.mp hj
          omega
        exact h.others j hlt (by simp [hcurrent])

theorem Held.step {a : Act} (h : Held q) : Held (q.step a) := by
  cases a with
  | getName handle starts =>
    simp only [ObjectNameQuery.step]
    split
    · next hpc => exact h.getName hpc
    · exact h
  | destroy =>
    simp only [ObjectNameQuery.step]
    split
    · next hpc =>
      constructor
      · intro i hi
        obtain ⟨hlt, hserves⟩ := h.current i hi
        have hsome : q.current ≠ none := by
          intro hnone
          rw [hnone] at hi
          cases hi
        simp only [Serves, hpc] at hserves
        refine ⟨hlt, ?_⟩
        simp only [Serves, if_neg hsome]
        exact hserves
      · exact h.others
    · exact h
  | caller timeout =>
    simp only [ObjectNameQuery.step]
    cases hi : q.current with
    | none => exact h
    | some i => exact h.callerStep hi
  | worker i result =>
    simp only [ObjectNameQuery.step]
    split
    · next hi => exact h.workerStep hi
    · exact h

/-- A worker that was given up is doomed. -/
theorem Held.doomed (h : Held q) (hi : q.GivenUp i) : (q.workers i).Doomed := by
  obtain ⟨hlt, hgiven⟩ := hi
  by_cases hcurrent : q.current = some i
  · obtain ⟨-, hserves⟩ := h.current i hcurrent
    rcases hgiven hcurrent with hpc | hpc
    · simp only [Serves, hpc] at hserves
      exact hserves
    · simp only [Serves, hpc] at hserves
      exact hserves
  · exact h.others i hlt hcurrent

/-- The name that `GetName` returns is what the call's only query produced. -/
theorem Held.answers_of_returns {a : Act} {name : WString} (h : Held q)
    (hr : q.returns a = some (some name)) : q.answers = [(q.handle, name)] := by
  cases a with
  | getName handle starts =>
    simp only [ObjectNameQuery.returns] at hr
    split at hr
    · cases hr
    · cases hr
  | destroy => cases hr
  | worker i result => cases hr
  | caller timeout =>
    simp only [ObjectNameQuery.returns] at hr
    split at hr
    · next i hi hpc =>
      obtain ⟨-, hserves⟩ := h.current i hi
      simp only [Serves, hpc] at hserves
      rw [hserves.2, Option.some.inj (Option.some.inj hr)]
    · cases hr
    · cases hr

/-- Once given up, a worker stays so, and only its own steps change it. -/
theorem Held.givenUp_step {a : Act} (h : Held q) (hi : q.GivenUp i) : (q.step a).GivenUp i
    ∧ (q.step a).workers i = match a with
      | .worker j result => if j = i then (q.workers i).step result else q.workers i
      | _ => q.workers i := by
  obtain ⟨hlt, hgiven⟩ := hi
  have hidle : q.pc = .idle → q.current ≠ some i := by
    intro hpc hcurrent
    rcases hgiven hcurrent with hresets | hreleases
    · rw [hpc] at hresets
      cases hresets
    · rw [hpc] at hreleases
      cases hreleases
  cases a with
  | getName handle starts =>
    simp only [ObjectNameQuery.step]
    split
    · next hpc =>
      cases hcurrent : q.current with
      | some j =>
        simp only [ObjectNameQuery.getName, hcurrent]
        exact ⟨⟨hlt, fun hc => absurd (hcurrent.trans hc) (hidle hpc)⟩, trivial⟩
      | none =>
        cases starts with
        | false =>
          simp only [ObjectNameQuery.getName, hcurrent]
          exact ⟨⟨hlt, hgiven⟩, rfl⟩
        | true =>
          have hne : i ≠ q.started := Nat.ne_of_lt hlt
          simp only [ObjectNameQuery.getName, hcurrent, if_true]
          exact ⟨⟨Nat.lt_succ_of_lt hlt, fun hc => absurd (Option.some.inj hc).symm hne⟩,
            setWorker_of_ne q _ hne⟩
    · exact ⟨⟨hlt, hgiven⟩, rfl⟩
  | destroy =>
    simp only [ObjectNameQuery.step]
    split
    · next hpc => exact ⟨⟨hlt, fun hc => absurd hc (hidle hpc)⟩, rfl⟩
    · exact ⟨⟨hlt, hgiven⟩, rfl⟩
  | caller timeout =>
    simp only [ObjectNameQuery.step]
    cases hcurrent : q.current with
    | none => exact ⟨⟨hlt, hgiven⟩, rfl⟩
    | some j =>
      obtain ⟨hstarted, hothers, hstep⟩ :=
        @Serves.callerStep q j timeout (h.current j hcurrent).2
      by_cases hji : i = j
      · -- it is about to be dropped
        subst hji
        rcases hgiven hcurrent with hpc | hpc
        · simp only [ObjectNameQuery.callerStep, hpc]
          exact ⟨⟨hlt, fun hc => by cases hc⟩, trivial⟩
        · simp only [ObjectNameQuery.callerStep, hpc]
          exact ⟨⟨hlt, fun hc => by cases hc⟩, trivial⟩
      · refine ⟨⟨hstarted.symm ▸ hlt, fun hc => ?_⟩, hothers i hji⟩
        rcases hstep with ⟨hsame, -⟩ | ⟨hnone, -⟩
        · exact absurd (Option.some.inj ((hc.symm.trans hsame).trans hcurrent)) hji
        · rw [hnone] at hc
          cases hc
  | worker j result =>
    simp only [ObjectNameQuery.step]
    split
    · refine ⟨⟨hlt, hgiven⟩, ?_⟩
      by_cases hji : j = i
      · subst hji
        rw [if_pos rfl]
        exact setWorker_self q j _
      · rw [if_neg hji]
        exact setWorker_of_ne q _ (Ne.symm hji)
    · next hj =>
      rw [if_neg fun heq : j = i => hj (heq ▸ hlt)]
      exact ⟨⟨hlt, hgiven⟩, rfl⟩

end Steps

/-! ## every run -/

/-- A step of a worker in which it does not begin its query again. -/
def Act.ofWorker (i : ℕ) : Act → Bool
  | .worker j result => j = i && result.final
  | _ => false

/-- A worker that was given up is nearer its end by every step of its own. -/
theorem Held.remaining_run {q : ObjectNameQuery} {i : ℕ} (h : Held q) (hi : q.GivenUp i)
    (acts : List Act) : ((run ObjectNameQuery.step q acts).workers i).remaining
      ≤ (q.workers i).remaining - acts.countP (Act.ofWorker i) := by
  induction acts generalizing q with
  | nil => exact Nat.le_refl _
  | cons a acts ih =>
    obtain ⟨hgiven, hworker⟩ := h.givenUp_step hi
    have hrest := @ih (q.step a) h.step hgiven
    rw [run_cons]
    refine Nat.le_trans hrest ?_
    rw [hworker, List.countP_cons]
    cases a with
    | worker j result =>
      obtain ⟨hle, hless⟩ := @Worker.Doomed.remaining_step _ result (h.doomed hi)
      by_cases hji : j = i
      · simp only [hji, if_true]
        by_cases hfinal : result.final = true
        · have hlt := hless hfinal
          simp only [Act.ofWorker, hfinal, decide_true, Bool.and_self, if_true]
          omega
        · simp only [Act.ofWorker, hfinal, Bool.and_false, Bool.false_eq_true, if_false]
          omega
      · simp [Act.ofWorker, hji]
    | getName handle starts => simp [Act.ofWorker]
    | destroy => simp [Act.ofWorker]
    | caller timeout => simp [Act.ofWorker]

/--
**A `GetName` that returns a name returns the one its own query produced, the only one since it was
called, and of its handle; and a worker that was given up has exited or can take a step, and has
exited once it took four in which no query began again.**
-/
theorem names_own_and_workers_exit (acts : List Act) :
    (Along ObjectNameQuery.step (fun q a => ∀ name, q.returns a = some (some name) →
        q.answers = [(q.handle, name)]) {} acts)
      ∧ ∀ i, (run ObjectNameQuery.step {} acts).GivenUp i →
        (((run ObjectNameQuery.step {} acts).workers i).pc = .exited
          ∨ ((run ObjectNameQuery.step {} acts).workers i).enabled = true)
        ∧ ∀ more : List Act, 4 ≤ more.countP (Act.ofWorker i) →
          ((run ObjectNameQuery.step {} (acts ++ more)).workers i).pc = .exited := by
  constructor
  · exact Along.mono_of_invariant Held (fun _ _ hq _ => hq.step)
      (fun _ _ hq _ _ hr => hq.answers_of_returns hr) Held.start
      (@along_of_forall _ _ ObjectNameQuery.step (fun _ => True) _ acts fun _ _ => trivial)
  · intro i hi
    have hheld : Held (run ObjectNameQuery.step {} acts) :=
      @run_invariant_mem _ _ ObjectNameQuery.step (fun _ => True) Held (fun _ _ hq _ => hq.step)
        _ acts Held.start fun _ _ => trivial
    refine ⟨(hheld.doomed hi).enabled, fun more hmore => ?_⟩
    rw [run_append, ← Worker.remaining_eq_zero]
    have hremaining := hheld.remaining_run hi more
    have hle := @Worker.remaining_le ((run ObjectNameQuery.step {} acts).workers i)
    omega

end WinSys.Handles
