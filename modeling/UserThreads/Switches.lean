import UserThreads.ForkPreemption

/-!
What the routines that switch threads leave, whatever threads are joined: the timer and
`t_yield` put the running thread at the end of its level, `t_fork` a new thread at its own, and
`Scheduler` takes the head of the highest level that is not empty.
-/
namespace UserThreads.Threads

open LinkedCells Queue Runs MultilevelQueue

variable {g : Grain} {s s' : State} {k : List Frame} {t : Tid}

/-- The running thread is ready again, with `k` as its context. -/
structure Parks (s s' : State) (k : List Frame) (next : Frame) : Prop where
  stack : s'.stack = [next]
  blocked : s'.blocked = true
  tcb : s'.tcb = Function.update s.tcb s.currentRunningThread { s.current with context := some k }
  hist : s'.hist = .inserted (.ready s.current.priority) s.currentRunningThread :: s.hist
  last : s'.gThreadID = s.gThreadID
  waiting : s'.tcbWaiting = s.tcbWaiting
  func : s'.userFunction = s.userFunction
  exited : s'.exitedThreadIDs = s.exitedThreadIDs

theorem parks_handler (hstack : s.stack = .handler :: k)
    (hstep : Threads.step g .exec s = some s') : Parks s s' (.resumed :: k) .sitBottom := by
  simp only [Threads.step, exec, hstack, timerHandler, Option.bind_eq_bind,
    Option.bind_eq_some_iff, Option.some.injEq, setjmp_priority] at hstep
  obtain ⟨s₁, henq, rfl⟩ := hstep
  obtain ⟨-, store, -, rfl⟩ := enqueue_spec henq
  exact ⟨rfl, rfl, rfl, rfl, rfl, rfl, rfl, rfl⟩

theorem parks_yield (hstack : s.stack = .enter .tYield :: k)
    (hstep : Threads.step g .exec s = some s') : Parks s s' (.yielded :: k) .sched := by
  simp only [Threads.step, exec, hstack, enter, tYield, Option.bind_eq_bind,
    Option.bind_eq_some_iff, Option.some.injEq, setjmp_priority] at hstep
  obtain ⟨s₁, henq, rfl⟩ := hstep
  obtain ⟨-, store, -, rfl⟩ := enqueue_spec henq
  exact ⟨rfl, rfl, rfl, rfl, rfl, rfl, rfl, rfl⟩

theorem Parks.contents {next : Frame} (h : Parks s s' k next) (hq : QueuesOk AllQueues s)
    (hq' : QueuesOk AllQueues s') : s'.contents =
      Levels.append s.contents (.ready s.current.priority) s.currentRunningThread :=
  contents_append (f := id) hq hq' (fun q => by simp [h.hist, removedAt])
    fun q => by simp [h.hist, insertedAt]

/-- `t_fork` of a thread above the caller's priority, up to the call of `t_yield`. -/
structure Forks (s s' : State) (func : ThreadFunc) (p : ℤ) (k : List Frame) : Prop where
  stack : s'.stack = .enter .tYield :: .forked (s.gThreadID + 1) :: k
  blocked : s'.blocked = true
  current : s'.currentRunningThread = s.currentRunningThread
  last : s'.gThreadID = s.gThreadID + 1
  tcb : s'.tcb = Function.update s.tcb (s.gThreadID + 1)
    { func := func, arg := .null, priority := p, flag := 1 }
  hist : s'.hist = .inserted (.ready p) (s.gThreadID + 1) ::
    .forked (s.gThreadID + 1) func .null p :: s.hist
  waiting : s'.tcbWaiting = s.tcbWaiting
  exited : s'.exitedThreadIDs = s.exitedThreadIDs

theorem forks_higher {func : ThreadFunc} {p : ℤ}
    (hstack : s.stack = .enter (.tFork func .null p) :: k)
    (hcur : s.currentRunningThread ≤ s.gThreadID) (hprio : s.current.priority ≠ -1)
    (hlow : s.current.priority < p) (hstep : Threads.step g .exec s = some s') :
    Forks s s' func p k := by
  obtain ⟨hcur', hlast, -, hhist, -, hyield⟩ := step_tFork hstack hcur hprio hstep
  obtain ⟨hblocked, hstack'⟩ := hyield hlow
  simp only [Threads.step, exec, hstack, enter, tFork, Option.bind_eq_bind,
    Option.bind_eq_some_iff] at hstep
  obtain ⟨s₁, henq, hstep⟩ := hstep
  obtain ⟨-, store, -, rfl⟩ := enqueue_spec henq
  have hrest : s'.tcb = Function.update s.tcb (s.gThreadID + 1)
      { func := func, arg := .null, priority := p, flag := 1 } ∧
      s'.tcbWaiting = s.tcbWaiting ∧ s'.exitedThreadIDs = s.exitedThreadIDs := by
    split at hstep <;>
      · cases hstep
        exact ⟨rfl, rfl, rfl⟩
  exact ⟨hstack', hblocked, hcur', hlast, hrest.1, hhist, hrest.2.1, hrest.2.2⟩

theorem Forks.contents {func : ThreadFunc} {p : ℤ} (h : Forks s s' func p k)
    (hq : QueuesOk AllQueues s) (hq' : QueuesOk AllQueues s') :
    s'.contents = Levels.append s.contents (.ready p) (s.gThreadID + 1) :=
  contents_append (f := id) hq hq' (fun q => by simp [h.hist, removedAt])
    fun q => by simp [h.hist, insertedAt]

/-- The thread `t` has been dispatched, for the first time or to its context. -/
structure Dispatches (s s' : State) (t : Tid) : Prop where
  current : s'.currentRunningThread = t
  last : s'.gThreadID = s.gThreadID
  waiting : s'.tcbWaiting = s.tcbWaiting
  exited : s'.exitedThreadIDs = s.exitedThreadIDs
  goes : ((s.tcb t).flag = 1 ∧ s'.stack = [.start] ∧ s'.userFunction = (s.tcb t).func ∧
      s'.tcb = Function.update s.tcb t { s.tcb t with flag := 0 }) ∨
    ((s.tcb t).flag ≠ 1 ∧ (s.tcb t).context = some s'.stack ∧
      s'.userFunction = s.userFunction ∧ s'.tcb = s.tcb)

/-- `Scheduler` takes the head of the highest level, or returns when there is none. -/
theorem step_sched (hq : QueuesOk AllQueues s) (hstack : s.stack = [.sched])
    (hstep : Threads.step g .exec s = some s') :
    (s'.stack = [.done] ∧ s'.blocked = true ∧ s'.contents = s.contents ∧
      s'.tcbWaiting = s.tcbWaiting ∧ s'.gThreadID = s.gThreadID ∧
      ∀ p, s.contents (.ready p) = []) ∨
    ∃ y t rest, s.contents (.ready y) = t :: rest ∧ (∀ p, y < p → s.contents (.ready p) = []) ∧
      s'.contents = Levels.set s.contents (.ready y) rest ∧ Dispatches s s' t := by
  have hq' : QueuesOk AllQueues s' :=
    (step_trans hstep).queuesOk hq (by simp [State.Steady, hstack, Frame.inserts])
  simp only [Threads.step, exec, hstack, scheduler] at hstep
  split at hstep
  · rename_i hscan
    cases hstep
    exact Or.inl ⟨rfl, rfl, rfl, rfl, rfl, fun p => hq.levels_empty (scan_eq_none.mp hscan p)⟩
  · rename_i y hscan
    simp only [Option.bind_eq_bind, Option.bind_eq_some_iff] at hstep
    obtain ⟨⟨t, s₁⟩, hdeq, hstep⟩ := hstep
    obtain ⟨-, store, -, rfl⟩ := dequeue_spec hdeq
    have htaken : (∀ q, insertedAt q s'.hist = insertedAt q s.hist) →
        (∀ q, removedAt q s'.hist =
          if .ready y = q then removedAt q s.hist ++ [t] else removedAt q s.hist) →
        ∃ rest, s.contents (.ready y) = t :: rest ∧
          s'.contents = Levels.set s.contents (.ready y) rest :=
      fun hins hrem => contents_take (f := id) hq hq' hins hrem
    have hhigh : ∀ p, y < p → s.contents (.ready p) = [] :=
      fun p hp => hq.levels_empty fun _ hlt => (scan_spec hscan).2.2.2 p hp hlt
    unfold dispatch at hstep
    simp only at hstep
    split at hstep
    · rename_i hflag
      cases hstep
      obtain ⟨rest, hhead, hcontents⟩ := htaken
        (fun q => by simp [incrementStack, State.setTcb, State.enableTimer, State.log, State.goto,
          State.disableTimer, insertedAt])
        fun q => by simp [incrementStack, State.setTcb, State.enableTimer, State.log, State.goto,
          State.disableTimer, removedAt]
      exact Or.inr ⟨y, t, rest, hhead, hhigh, hcontents, rfl, rfl, rfl, rfl,
        Or.inl ⟨hflag, rfl, by simp [incrementStack, State.setTcb, State.current, State.goto,
          State.log, State.enableTimer, State.disableTimer], rfl⟩⟩
    · rename_i hflag
      obtain ⟨k, hcontext, rfl⟩ := Option.map_eq_some_iff.mp hstep
      obtain ⟨rest, hhead, hcontents⟩ := htaken
        (fun q => by simp [State.goto, State.disableTimer, insertedAt])
        fun q => by simp [State.goto, State.disableTimer, removedAt]
      exact Or.inr ⟨y, t, rest, hhead, hhigh, hcontents, rfl, rfl, rfl, rfl,
        Or.inr ⟨hflag, hcontext, rfl, rfl⟩⟩

end UserThreads.Threads
