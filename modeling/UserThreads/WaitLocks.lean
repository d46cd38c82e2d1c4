import UserThreads.MutualExclusion
import UserThreads.CriticalSections

/-!
The locks around `t_wait`. The lock that `t_wait` releases is its argument, but the one
that it takes before it returns is what the last `t_sig` that has woken the thread left
in its tcb. A thread inside the call goes through a few program points, and what it
holds depends only on these and on that lock.
-/
namespace UserThreads.Threads

open LinkedCells Queue Runs

/-- How often a `t_sig` has taken the thread out of a queue. -/
def wakings (t : Tid) : List Event → ℕ
  | [] => 0
  | .removed (.cond _ _) u :: rest => if u = t then wakings t rest + 1 else wakings t rest
  | _ :: rest => wakings t rest

/-- The locks that the thread holds. -/
def State.holding (s : State) (t : Tid) : LockId → Bool := fun l => holdsLock t l s.hist

/-- The thread is inside the routine it has called. -/
def State.Inside (s : State) (t : Tid) : Prop := s.point t ≠ [.user]

/-- The thread sleeps in `t_wait`. -/
def State.Sleeps (s : State) (t : Tid) : Prop := s.point t = [.waited, .user]

instance (s : State) (t : Tid) : Decidable (s.Inside t) := inferInstanceAs (Decidable (¬ _ = _))

instance (s : State) (t : Tid) : Decidable (s.Sleeps t) := inferInstanceAs (Decidable (_ = _))

/-- The thread stays inside the routine, and no `t_sig` wakes it again while it sleeps. -/
def NotWoken (g : Grain) (t : Tid) : Move → State → Prop := fun m s =>
  s.Inside t ∧ (s.Sleeps t →
    (step g m s).all fun s' => wakings t s'.hist = wakings t s.hist)

instance (g : Grain) (t : Tid) (m : Move) (s : State) : Decidable (NotWoken g t m s) :=
  inferInstanceAs (Decidable (_ ∧ (_ → _)))

/-- In state `a` the thread has called `t_wait` on the condition with the lock, the last `t_sig`
that wakes it gives the lock `m`, and in state `d` the call has returned. -/
structure WaitsFor (g : Grain) (t : Tid) (c : CondId) (l : LockId) (m : Option LockId)
    (a d : State) : Prop where
  call : a.currentRunningThread = t ∧ a.stack = [.enter (.tWait c (some l)), .user]
  woken : ∃ b b' v k, Run (step g) (fun _ s => s.Inside t) a b ∧ b.Sleeps t ∧
    b.stack = .enter (.tSig c v m) :: k ∧ step g .exec b = some b' ∧
    wakings t b'.hist = wakings t b.hist + 1 ∧ Run (step g) (NotWoken g t) b' d
  ret : d.currentRunningThread = t ∧ d.stack = [.user]

/-- On its return from `t_wait` the thread holds the lock, and no lock that it did not hold
before the call. -/
def Restored (t : Tid) (l : LockId) (a d : State) : Prop :=
  d.holding t l = true ∧ ∀ k, d.holding t k = true → a.holding t k = true

/-- From where it sleeps to the return: what the thread holds when it holds `rest` while it
sleeps and takes the lock `m` afterwards. -/
inductive WakesUp (m : Option LockId) (rest : LockId → Bool) :
    List Frame → (LockId → Bool) → Prop
  | waited : WakesUp m rest [.waited, .user] rest
  | spin (l : LockId) (h : m = some l) : WakesUp m rest [.spin l, .user] rest
  | spun (l : LockId) (h : m = some l) : WakesUp m rest [.spun l, .user] rest
  | acquired (l : LockId) (v : Value) (h : m = some l) :
      WakesUp m rest [.ret v, .user] (Function.update rest l true)

/-- From the call to where it sleeps. -/
inductive FallsIn (c : CondId) (l : LockId) (held : LockId → Bool) :
    List Frame → (LockId → Bool) → Prop
  | call : FallsIn c l held [.enter (.tWait c (some l)), .user] held
  | release : FallsIn c l held [.enter (.lockRelease l), .waiting c, .user] held
  | released : FallsIn c l held [.released, .waiting c, .user] (Function.update held l false)
  | back (v : Value) : FallsIn c l held [.ret v, .waiting c, .user] (Function.update held l false)
  | waiting : FallsIn c l held [.waiting c, .user] (Function.update held l false)

/-- What it holds in the end. -/
def regained (m : Option LockId) (rest : LockId → Bool) : LockId → Bool :=
  match m with
  | none => rest
  | some l => Function.update rest l true

variable {g : Grain} {s s' s₀ a d : State} {m : Move} {t : Tid} {c : CondId} {l : LockId}
  {lock : Option LockId} {rest held : LockId → Bool} {k : List Frame}

theorem WakesUp.own (h : WakesUp lock rest k held) : k ≠ [] ∧ .start ∉ k ∧ k ≠ [.user] := by
  cases h <;> simp

theorem FallsIn.own (h : FallsIn c l rest k held) : k ≠ [] ∧ .start ∉ k ∧ k ≠ [.user] := by
  cases h <;> simp

/-- A thread that does not execute keeps the locks it holds. -/
theorem Trans.holding_kept (h : Trans g s m s')
    (hidle : t = s.currentRunningThread → ¬ s.Executes m) : s'.holding t = s.holding t := by
  funext l
  have hother : ∀ {f : Frame} {k : List Frame}, m = .exec → s.stack = f :: k →
      f.isTimer = false → f.isSystem = false → s.currentRunningThread ≠ t := by
    rintro f k rfl hstack hf hf' rfl
    exact hidle rfl (State.executes (by simp) hstack hf hf')
  cases h.lockMove with
  | none m _ _ hholds => exact hholds t l
  | acquire l' k v hstack _ _ _ hhist =>
    have hne := hother rfl hstack rfl rfl
    simp [State.holding, hhist, holdsLock, hne]
  | release l' k v c hstack _ _ _ hhist =>
    have hne := hother rfl hstack rfl rfl
    simp [State.holding, hhist, holdsLock, hne]
  | create k _ _ _ hhist => simp [State.holding, hhist]

theorem holding_acquired (hist : List Event) :
    (fun k => holdsLock t k (.acquired t l :: hist)) =
      Function.update (fun k => holdsLock t k hist) l true := by
  funext k
  by_cases hk : k = l
  · simp [hk, holdsLock]
  · simp [holdsLock, hk, Ne.symm hk]

theorem holding_released (hist : List Event) (inWait : Option CondId) :
    (fun k => holdsLock t k (.released t l inWait :: hist)) =
      Function.update (fun k => holdsLock t k hist) l false := by
  funext k
  by_cases hk : k = l
  · simp [hk, holdsLock]
  · simp [holdsLock, hk, Ne.symm hk]

/-- The argument of a thread changes only where `t_sig` takes it out of a queue. -/
theorem Trans.arg_kept (h : Trans g s m s') (hnew : t ≠ s.gThreadID + 1)
    (hwoken : wakings t s'.hist = wakings t s.hist) : (s'.tcb t).arg = (s.tcb t).arg := by
  have hupdate : ∀ (u : Tid) (b : Tcb), b.arg = (s.tcb u).arg →
      (Function.update s.tcb u b t).arg = (s.tcb t).arg := by
    intro u b hb
    by_cases ht : t = u
    · rw [ht, Function.update_self, hb]
    · rw [Function.update_of_ne ht]
  cases h with
  | sigWake c val lock k i u store store' =>
    have hne : u ≠ t := by
      rintro rfl
      simp [wakings] at hwoken
    exact congrArg Tcb.arg (Function.update_of_ne (Ne.symm hne) ..)
  | fork => exact congrArg Tcb.arg (Function.update_of_ne hnew ..)
  | suspend | join | exit | leave | dispatchNew => exact hupdate _ _ rfl
  | _ => rfl

/-- A `t_sig` that takes the thread out of a queue leaves its lock there. -/
theorem tSig_arg {v : AnyPtr} (hstack : s.stack = .enter (.tSig c v lock) :: k)
    (hstep : step g .exec s = some s') (hwoken : wakings t s'.hist = wakings t s.hist + 1) :
    (s'.tcb t).arg = lockPtr lock := by
  have hsig : tSig k s c lock = some s' := by
    simpa [step, exec, hstack, enter] using hstep
  simp only [tSig, Option.bind_eq_bind, Option.bind_eq_some_iff] at hsig
  obtain ⟨_, -, _, -, hsig⟩ := hsig
  split at hsig
  · cases hsig
    simp [State.goto, State.enableTimer, State.disableTimer] at hwoken
  · simp only [Option.bind_eq_some_iff] at hsig
    obtain ⟨empty, -, hsig⟩ := hsig
    split at hsig
    · cases hsig
      simp [State.goto, State.enableTimer, State.disableTimer] at hwoken
    · simp only [Option.bind_eq_some_iff, Option.some.injEq] at hsig
      obtain ⟨⟨u, s₁⟩, hdeq, s₂, henq, rfl⟩ := hsig
      obtain ⟨-, store, -, rfl⟩ := dequeue_spec hdeq
      obtain ⟨-, store', -, rfl⟩ := enqueue_spec henq
      by_cases hu : u = t
      · subst hu
        simp [State.goto, State.enableTimer, State.setTcb]
      · simp [State.goto, State.enableTimer, State.setTcb, State.disableTimer, wakings, hu]
          at hwoken

/-- Where a step leaves the running thread in a routine of its own. -/
theorem point_goto {f : Frame} (hcur : s'.currentRunningThread = s.currentRunningThread)
    (hstack : s'.stack = f :: k) (hf : f.isTimer = false) (hf' : f.isSystem = false) :
    s'.point s.currentRunningThread = f :: k :=
  hcur ▸ point_own hstack hf hf'

/-- A thread that executes on its way to sleep gets further on it. -/
theorem FallsIn.next (h : FallsIn c l held s.stack (s.holding s.currentRunningThread))
    (hstep : step g .exec s = some s') :
    FallsIn c l held (s'.point s.currentRunningThread) (s'.holding s.currentRunningThread) ∨
      s'.point s.currentRunningThread = [.waited, .user] ∧
        s'.holding s.currentRunningThread = Function.update held l false := by
  have hnext : ∀ {f : Frame} {k : List Frame} {hold : LockId → Bool},
      s'.currentRunningThread = s.currentRunningThread → s'.stack = f :: k →
      f.isTimer = false → f.isSystem = false → s'.holding s.currentRunningThread = hold →
      FallsIn c l held (f :: k) hold →
      FallsIn c l held (s'.point s.currentRunningThread) (s'.holding s.currentRunningThread) := by
    intro f k hold hcur hstack hf hf' hhold hfalls
    rwa [point_goto hcur hstack hf hf', hhold]
  generalize hstack : s.stack = stack at h
  generalize hhold : s.holding s.currentRunningThread = hold at h
  cases h with
  | call =>
    simp only [step, exec, hstack, enter, tWait, Option.some.injEq] at hstep
    subst hstep
    exact Or.inl (hnext rfl rfl rfl rfl hhold .release)
  | release =>
    simp only [step, exec, hstack, enter, lockRelease, Option.bind_eq_bind,
      Option.bind_eq_some_iff, Option.some.injEq] at hstep
    obtain ⟨v, -, rfl⟩ := hstep
    exact Or.inl (hnext rfl rfl rfl rfl (hhold ▸ holding_released s.hist _) .released)
  | released =>
    simp only [step, exec, hstack, Option.some.injEq] at hstep
    subst hstep
    exact Or.inl (hnext rfl rfl rfl rfl hhold (.back .void))
  | back v =>
    simp only [step, exec, hstack, Option.some.injEq] at hstep
    subst hstep
    exact Or.inl (hnext rfl rfl rfl rfl hhold .waiting)
  | waiting =>
    simp only [step, exec, hstack, tWaitBlock, Option.bind_eq_bind,
      Option.bind_eq_some_iff, Option.some.injEq] at hstep
    obtain ⟨s₁, henq, rfl⟩ := hstep
    obtain ⟨-, store, -, rfl⟩ := enqueue_spec henq
    right
    refine ⟨?_, hhold⟩
    rw [State.point_of_nil (by rfl)]
    simp [State.goto, State.setjmp, State.setTcb, State.disableTimer, body, Frame.isTimer,
      Frame.isSystem]

/-- A thread that is woken takes the lock that it was left, and returns. -/
theorem WakesUp.next (h : WakesUp lock rest s.stack (s.holding s.currentRunningThread))
    (harg : s.stack = [.waited, .user] → s.current.arg = lockPtr lock)
    (hstep : step g .exec s = some s') :
    WakesUp lock rest (s'.point s.currentRunningThread) (s'.holding s.currentRunningThread) ∧
        ¬ s'.Sleeps s.currentRunningThread ∨
      s'.point s.currentRunningThread = [.user] ∧
        s'.holding s.currentRunningThread = regained lock rest := by
  have hnext : ∀ {f : Frame} {k : List Frame} {hold : LockId → Bool},
      s'.currentRunningThread = s.currentRunningThread → s'.stack = f :: k →
      f.isTimer = false → f.isSystem = false → s'.holding s.currentRunningThread = hold →
      f ≠ .waited → WakesUp lock rest (f :: k) hold →
      WakesUp lock rest (s'.point s.currentRunningThread)
        (s'.holding s.currentRunningThread) ∧ ¬ s'.Sleeps s.currentRunningThread := by
    intro f k hold hcur hstack hf hf' hhold hne hwakes
    rw [State.Sleeps, point_goto hcur hstack hf hf', hhold]
    exact ⟨hwakes, fun heq => hne (List.head_eq_of_cons_eq heq)⟩
  generalize hstack : s.stack = stack at h
  generalize hhold : s.holding s.currentRunningThread = hold at h
  cases h with
  | waited =>
    have harg := harg hstack
    simp only [step, exec, hstack, tWaitResume, harg] at hstep
    cases lock with
    | none =>
      cases hstep
      exact Or.inr ⟨point_goto rfl rfl rfl rfl, hhold⟩
    | some l =>
      cases hstep
      exact Or.inl (hnext rfl rfl rfl rfl hhold (by simp) (.spin l rfl))
  | spin l h =>
    simp only [step, exec, hstack, Threads.spin, Option.bind_eq_bind, Option.bind_eq_some_iff]
      at hstep
    obtain ⟨v, -, hstep⟩ := hstep
    split at hstep <;> cases hstep
    · exact Or.inl (hnext rfl hstack rfl rfl hhold (by simp) (.spin l h))
    · exact Or.inl (hnext rfl rfl rfl rfl hhold (by simp) (.spun l h))
  | spun l h =>
    simp only [step, exec, hstack, lockAcquire, Option.bind_eq_bind,
      Option.bind_eq_some_iff, Option.some.injEq] at hstep
    obtain ⟨v, -, rfl⟩ := hstep
    exact Or.inl (hnext rfl rfl rfl rfl (hhold ▸ holding_acquired s.hist) (by simp)
      (.acquired l _ h))
  | acquired l v h =>
    simp only [step, exec, hstack, Option.some.injEq] at hstep
    subst hstep
    subst h
    exact Or.inr ⟨point_goto rfl rfl rfl rfl, hhold⟩

/-- A thread that goes on has been left some lock or none. -/
theorem WakesUp.left (h : WakesUp lock rest s.stack held) (hstep : step g .exec s = some s') :
    ∃ lock, WakesUp lock rest s.stack held ∧
      (s.stack = [.waited, .user] → s.current.arg = lockPtr lock) := by
  by_cases hsleeps : s.stack = [.waited, .user]
  · have harg : ∃ lock, s.current.arg = lockPtr lock := by
      simp only [step, exec, hsleeps, tWaitResume] at hstep
      cases harg : s.current.arg with
      | null => exact ⟨none, rfl⟩
      | lock l => exact ⟨some l, rfl⟩
      | data n => simp [harg] at hstep
    obtain ⟨lock', harg⟩ := harg
    rw [hsleeps] at h ⊢
    cases h
    exact ⟨lock', .waited, fun _ => harg⟩
  · exact ⟨lock, h, fun heq => absurd heq hsleeps⟩

/-- A step at which the thread is inside the routine: it stays where it is and keeps its
locks, or it is the one that executes. -/
theorem inside_step (hl : Lives s) (hin : s.Inside t) (hown : s.point t ≠ [] ∧ .start ∉ s.point t)
    (hstep : step g m s = some s') :
    (s'.point t = s.point t ∧ s'.holding t = s.holding t) ∨
      m = .exec ∧ t = s.currentRunningThread ∧ s.point t = s.stack := by
  have h := step_trans hstep
  by_cases hrun : t = s.currentRunningThread ∧ s.Executes m
  · obtain ⟨rfl, hrun⟩ := hrun
    have hpoint := hrun.point
    refine Or.inr ⟨?_, rfl, hpoint⟩
    have huser : s.stack ≠ [.user] := fun hstack => hin (hpoint.trans hstack)
    cases m with
    | exec => rfl
    | expire => exact absurd rfl hrun.1
    | call | finish => simp [step, huser] at hstep
  · have hidle : t = s.currentRunningThread → ¬ s.Executes m := fun heq hexec => hrun ⟨heq, hexec⟩
    exact Or.inl ⟨h.point_kept hl.regular hl.starts (hl.starts.entered_user hown.1 hown.2) hidle,
      h.holding_kept hidle⟩

/-- Where the thread is between its call and the return. -/
def Between (c : CondId) (l : LockId) (held : LockId → Bool) (s : State) (t : Tid) : Prop :=
  s.Inside t → FallsIn c l held (s.point t) (s.holding t) ∨
    ∃ lock, WakesUp lock (Function.update held l false) (s.point t) (s.holding t)

theorem Between.step (h : Between c l held s t) (hl : Lives s) (hin : s.Inside t)
    (hstep : step g m s = some s') : Between c l held s' t := by
  intro hin'
  rcases h hin with hfalls | ⟨lock, hwakes⟩
  · rcases inside_step hl hin ⟨hfalls.own.1, hfalls.own.2.1⟩ hstep with
      ⟨hpoint, hhold⟩ | ⟨rfl, rfl, hpoint⟩
    · exact Or.inl (by rwa [hpoint, hhold])
    · rw [hpoint] at hfalls
      rcases hfalls.next hstep with hnext | ⟨hsleeps, hhold⟩
      · exact Or.inl hnext
      · rw [hsleeps, hhold]
        exact Or.inr ⟨none, .waited⟩
  · rcases inside_step hl hin ⟨hwakes.own.1, hwakes.own.2.1⟩ hstep with
      ⟨hpoint, hhold⟩ | ⟨rfl, rfl, hpoint⟩
    · exact Or.inr ⟨lock, by rwa [hpoint, hhold]⟩
    · rw [hpoint] at hwakes
      obtain ⟨lock', hwakes', harg⟩ := hwakes.left hstep
      rcases hwakes'.next harg hstep with ⟨hnext, -⟩ | ⟨huser, -⟩
      · exact Or.inr ⟨lock', hnext⟩
      · exact absurd huser hin'

/-- Where the thread is between the last `t_sig` that wakes it and the return. -/
def Resuming (lock : Option LockId) (rest : LockId → Bool) (s : State) (t : Tid) : Prop :=
  WakesUp lock rest (s.point t) (s.holding t) ∧ (s.Sleeps t → (s.tcb t).arg = lockPtr lock) ∨
    s.point t = [.user] ∧ s.holding t = regained lock rest

theorem Resuming.step (h : Resuming lock rest s t) (hl : Lives s) (hok : NotWoken g t m s)
    (hstep : step g m s = some s') : Resuming lock rest s' t := by
  obtain ⟨hin, hnot⟩ := hok
  rcases h with ⟨hwakes, harg⟩ | ⟨huser, -⟩
  · rcases inside_step hl hin ⟨hwakes.own.1, hwakes.own.2.1⟩ hstep with
      ⟨hpoint, hhold⟩ | ⟨rfl, rfl, hpoint⟩
    · refine Or.inl ⟨by rwa [hpoint, hhold], fun hsleeps => ?_⟩
      have hbefore : s.Sleeps t := hpoint.symm.trans hsleeps
      have hsame : wakings t s'.hist = wakings t s.hist := by simpa [hstep] using hnot hbefore
      have hentered := hl.starts.entered_user hwakes.own.1 hwakes.own.2.1
      have hle := hl.starts.le_gThreadID hentered
      rw [(step_trans hstep).arg_kept (by rintro rfl; exact absurd hle (not_le.mpr (lt_next _)))
        hsame]
      exact harg hbefore
    · rw [hpoint] at hwakes
      rcases hwakes.next (fun hstack => harg (hpoint.trans hstack)) hstep with
        ⟨hnext, hawake⟩ | hback
      · exact Or.inl ⟨hnext, fun hsleeps => absurd hsleeps hawake⟩
      · exact Or.inr hback
  · exact absurd huser hin

/-- What a thread holds that returns from `t_wait`. -/
theorem WaitsFor.holding (hw : WaitsFor g t c l lock a d) (hl : Lives a ∧ QueuesOk WaitQueues a) :
    d.holding t = regained lock (Function.update (a.holding t) l false) := by
  obtain ⟨⟨hcur, hcall⟩, ⟨b, b', v, k, hearly, hsleeps, hsig, hstep, hwoken, hlate⟩, hcur', hret⟩ :=
    hw
  have hpoint : a.point t = [.enter (.tWait c (some l)), .user] := by
    rw [← hcur]
    exact point_own hcall rfl rfl
  have hbetween := hearly.invariant
    (I := fun s => (Lives s ∧ QueuesOk WaitQueues s) ∧ Between c l (a.holding t) s t)
    ⟨hl, fun _ => Or.inl (hpoint ▸ .call)⟩
    fun m s s' hI hok hstep => ⟨Lives.step hI.1 hstep, hI.2.step hI.1.1 hok hstep⟩
  obtain ⟨hlb, hb⟩ := hbetween
  have hsleep : b.holding t = Function.update (a.holding t) l false := by
    have hin : b.Inside t := by simp [State.Inside, show b.point t = _ from hsleeps]
    rcases hb hin with hfalls | ⟨lock', hwakes⟩
    · rw [show b.point t = _ from hsleeps] at hfalls
      cases hfalls
    · rw [show b.point t = _ from hsleeps] at hwakes
      generalize b.holding t = hold at hwakes ⊢
      cases hwakes
      rfl
  have hkept : b'.Sleeps t ∧ b'.holding t = b.holding t := by
    rcases inside_step hlb.1 (t := t) (by simp [State.Inside, show b.point t = _ from hsleeps])
      (by simp [show b.point t = _ from hsleeps]) hstep with ⟨hpoint, hhold⟩ | ⟨-, -, hpoint⟩
    · exact ⟨hpoint.trans hsleeps, hhold⟩
    · rw [hsig, show b.point t = _ from hsleeps] at hpoint
      cases hpoint
  have hresuming := hlate.invariant
    (I := fun s => (Lives s ∧ QueuesOk WaitQueues s) ∧
      Resuming lock (Function.update (a.holding t) l false) s t)
    ⟨Lives.step hlb hstep, Or.inl ⟨?_, fun _ => tSig_arg hsig hstep hwoken⟩⟩
    fun m s s' hI hok hstep => ⟨Lives.step hI.1 hstep, hI.2.step hI.1.1 hok hstep⟩
  · have huser : d.point t = [.user] := by
      rw [← hcur']
      exact point_own hret rfl rfl
    rcases hresuming.2 with ⟨hwakes, -⟩ | ⟨-, hhold⟩
    · exact absurd huser hwakes.own.2.2
    · exact hhold
  · rw [show b'.point t = _ from hkept.1, hkept.2, hsleep]
    exact .waited

/-- A thread that calls `t_wait` with a lock it holds, and is woken, has the lock again on its
return and no other besides, exactly when the `t_sig` that woke it was given this lock. -/
theorem t_wait_restores_iff {ok : Move → State → Prop} (h₀ : Initial s₀)
    (hrun : Run (step g) ok s₀ a) (hheld : a.holding t l = true)
    (hw : WaitsFor g t c l lock a d) : Restored t l a d ↔ lock = some l := by
  have hhold := hw.holding (lives_of_run h₀ hrun)
  unfold Restored
  rw [hhold]
  cases lock with
  | none => simp [regained]
  | some l' =>
    by_cases hl : l' = l
    · subst hl
      refine iff_of_true ⟨by simp [regained], fun k hk => ?_⟩ rfl
      by_cases hkl : k = l'
      · exact hkl ▸ hheld
      · simpa [regained, hkl] using hk
    · simp [regained, hl, Ne.symm hl]

section Computed

/-! A first thread that forks a second one, takes lock 0 and waits with it; the second
one signals. -/

def untilWait : List Move :=
  [.exec, .exec, .call (.tFork 0 .null 126), .exec, .exec, .call (.lockAcquire 0), .exec, .exec,
   .exec, .exec, .call (.tWait 0 (some 0))]

def untilSig (lock : Option LockId) : List Move :=
  [.exec, .exec, .exec, .exec, .exec, .exec, .exec, .call (.tSig 0 .null lock)]

/-- The states of the call of `t_wait`, before and after the `t_sig`, and at the return. -/
def signalled (lock : Option LockId) (late : List Move) (s₀ : State) :
    Option (State × State × State × State) := do
  let a ← play (step .statement) AnyTiming untilWait s₀
  let b ← play (step .statement) (fun _ s => s.Inside 1) (untilSig lock) a
  let b' ← step .statement .exec b
  let d ← play (step .statement) (NotWoken .statement 1) late b'
  some (a, b, b', d)

theorem run_of_play {ok : Move → State → Prop} [∀ m s, Decidable (ok m s)] {ms : List Move}
    (h : play (step g) ok ms s = some s') : Run (step g) ok s s' := by
  obtain ⟨path, hpath, hok⟩ := path_of_play h
  exact hpath.run hok

theorem exists_waits (lock : Option LockId) (late : List Move) (good : State → Bool)
    (h : (booted [.lock, .cond (some 0)] 127).any (fun s₀ =>
      (signalled lock late s₀).any fun x =>
        (x.1.currentRunningThread = 1 ∧ x.1.stack = [.enter (.tWait 0 (some 0)), .user] ∧
          x.1.holding 1 0 = true) ∧
        (x.2.1.Sleeps 1 ∧ x.2.1.stack = [.enter (.tSig 0 .null lock), .user] ∧
          wakings 1 x.2.2.1.hist = wakings 1 x.2.1.hist + 1) ∧
        x.2.2.2.currentRunningThread = 1 ∧ x.2.2.2.stack = [.user] ∧ good x.2.2.2 = true) = true) :
    ∃ s₀ a d, Initial s₀ ∧ Run (step .statement) AnyTiming s₀ a ∧ a.holding 1 0 = true ∧
      WaitsFor .statement 1 0 0 lock a d ∧ good d = true := by
  obtain ⟨s₀, h₀, h⟩ := (Option.any_eq_true ..).mp h
  obtain ⟨⟨a, b, b', d⟩, hrun, hgood⟩ := (Option.any_eq_true ..).mp h
  obtain ⟨⟨hcur, hcall, hheld⟩, ⟨hsleeps, hsig, hwoken⟩, hcur', hret, hgood⟩ :=
    of_decide_eq_true hgood
  simp only [signalled, Option.bind_eq_bind, Option.bind_eq_some_iff, Option.some.injEq,
    Prod.mk.injEq] at hrun
  obtain ⟨a', ha, b₁, hb, b₂, hb', d', hd, rfl, rfl, rfl, rfl⟩ := hrun
  exact ⟨s₀, a', d', ⟨{}, _, 0, .null, 127, h₀⟩, run_of_play ha, hheld, ⟨⟨hcur, hcall⟩,
    ⟨b₁, b₂, .null, [.user], run_of_play hb, hsleeps, hsig, hb', hwoken, run_of_play hd⟩,
    hcur', hret⟩, hgood⟩

/-- A `t_sig` with NULL leaves the thread without its lock. -/
theorem wait_returns_without_lock :
    ¬ ∀ (s₀ a d : State) (t : Tid) (c : CondId) (l : LockId) (lock : Option LockId),
      Initial s₀ → Run (step .statement) AnyTiming s₀ a → a.holding t l = true →
      WaitsFor .statement t c l lock a d → Restored t l a d := by
  intro hall
  obtain ⟨s₀, a, d, h₀, hrun, hheld, hw, hgood⟩ := exists_waits none
    [.exec, .call .tYield, .exec, .exec, .exec] (fun d => d.holding 1 0 = false)
    (by decide +kernel)
  have hlost : d.holding 1 0 = false := of_decide_eq_true hgood
  obtain ⟨hback, -⟩ := hall s₀ a d 1 0 0 none h₀ hrun hheld hw
  rw [hlost] at hback
  cases hback

/-- A `t_sig` with the same lock gives it back. -/
theorem t_wait_restores_iff_same :
    ∃ (s₀ a d : State), Initial s₀ ∧ WaitsFor .statement 1 0 0 (some 0) a d ∧
      (Restored 1 0 a d ↔ some (0 : LockId) = some 0) := by
  obtain ⟨s₀, a, d, h₀, hrun, hheld, hw, -⟩ := exists_waits (some 0)
    [.exec, .call .tYield, .exec, .exec, .exec, .exec, .exec, .exec] (fun _ => true)
    (by decide +kernel)
  exact ⟨s₀, a, d, h₀, hw, t_wait_restores_iff h₀ hrun hheld hw⟩

end Computed

end UserThreads.Threads
