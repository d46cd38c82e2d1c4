import UserThreads.ThreadStart

/-!
Wakeups. `t_wait` releases its lock, which unblocks SIGVTALRM, and only then
blocks it again and enters the queue of the condition. A thread that sleeps, in
that it has released the lock and no `t_sig` has taken it out of a queue, is in
a queue or still in between. So `t_sig` finds every sleeper exactly when none is
in between.
-/
namespace UserThreads.Threads

open LinkedCells Queue Runs

/-- The thread has released the lock inside `t_wait` on the condition, and no
`t_sig` on the condition has taken it out of its queues since. -/
def asleep (t : Tid) (c : CondId) (l : LockId) : List Event → Bool
  | [] => false
  | .released u l' (some c') :: rest =>
    if u = t ∧ c' = c ∧ l' = l then true else asleep t c l rest
  | .removed (.cond c' _) u :: rest => if u = t ∧ c' = c then false else asleep t c l rest
  | _ :: rest => asleep t c l rest

/-- The thread is in one of the queues of the condition. -/
def State.Queued (s : State) (c : CondId) (t : Tid) : Prop := ∃ p, t ∈ s.contents (.cond c p)

/-- The thread sleeps and has not yet come to `disableTimer` in `t_wait`. -/
def State.FallsAsleep (s : State) (c : CondId) (t : Tid) : Prop :=
  (∃ l, asleep t c l s.hist = true) ∧ .waiting c ∈ s.point t ∧
    ∀ l, .enter (.lockRelease l) ∉ s.point t

/-- The step takes a waiter of the condition out of its queue and makes it ready. -/
def Wakes (s s' : State) (c : CondId) : Prop :=
  ∃ p t, s'.hist =
    .inserted (.ready (s.tcb t).priority) t :: .removed (.cond c p) t :: s.hist

/-- A `t_sig` that scans the queues of a condition finds in them every thread that
sleeps on it, and wakes a waiter if there is one. -/
def FindsSleepers (m : Move) (s : State) : Prop :=
  m = .exec → ∀ c val lock k, s.stack = .enter (.tSig c val lock) :: k →
    ∀ t l, asleep t c l s.hist = true →
      s.Queued c t ∧ ∀ s', step .statement .exec s = some s' → Wakes s s' c

/-- At a `t_sig` no thread is falling asleep on the condition. One that still has
an entry from an earlier wait does not count. -/
def NoneFallsAsleep (m : Move) (s : State) : Prop :=
  m = .exec → ∀ c val lock k, s.stack = .enter (.tSig c val lock) :: k →
    ∀ t, s.FallsAsleep c t → s.Queued c t

/-- The running thread holds the lock it gives to `t_wait` or `t_sig`. -/
def State.inMonitor (s : State) : Bool :=
  match s.stack with
  | .enter (.tWait _ (some l)) :: _ => holdsLock s.currentRunningThread l s.hist
  | .enter (.tSig _ _ (some l)) :: _ => holdsLock s.currentRunningThread l s.hist
  | _ => true

variable {g : Grain} {s s' : State} {m : Move} {t u : Tid} {c : CondId} {l : LockId} {q : QRef}
  {es hist : List Event} {p : ℤ}

/-- A thread sleeps after some events if it did before and was not taken out of a
queue, or if it has released the lock. -/
theorem asleep_append (h : asleep t c l (es ++ hist) = true) :
    .released t l (some c) ∈ es ∨
      asleep t c l hist = true ∧ ∀ p, .removed (.cond c p) t ∉ es := by
  induction es with
  | nil => exact Or.inr ⟨h, fun _ => List.not_mem_nil⟩
  | cons e rest ih =>
    have hkeep : asleep t c l (rest ++ hist) = true → (∀ p, e ≠ .removed (.cond c p) t) →
        .released t l (some c) ∈ e :: rest ∨
          asleep t c l hist = true ∧ ∀ p, .removed (.cond c p) t ∉ e :: rest := by
      intro hrest he
      rcases ih hrest with hmem | ⟨hold, hnot⟩
      · exact Or.inl (List.mem_cons_of_mem e hmem)
      · refine Or.inr ⟨hold, fun p hmem => ?_⟩
        rcases List.mem_cons.mp hmem with heq | hmem
        · exact he p heq.symm
        · exact hnot p hmem
    cases e with
    | released u l' inWait =>
      cases inWait with
      | none => exact hkeep h (by simp)
      | some c' =>
        rw [List.cons_append, asleep] at h
        split_ifs at h with hsame
        · obtain ⟨rfl, rfl, rfl⟩ := hsame
          exact Or.inl (List.mem_cons_self ..)
        · exact hkeep h (by simp)
    | removed r u =>
      cases r with
      | cond c' p' =>
        rw [List.cons_append, asleep] at h
        split_ifs at h with hsame
        refine hkeep h fun p heq => hsame ?_
        cases heq
        exact ⟨rfl, rfl⟩
      | _ => exact hkeep h (by simp)
    | _ => exact hkeep h (by simp)

/-- A move adds events, and a release inside `t_wait` only where it is executed. -/
theorem Trans.history (h : Trans g s m s') :
    ∃ es, s'.hist = es ++ s.hist ∧ ∀ u l c, .released u l (some c) ∈ es →
      u = s'.currentRunningThread ∧ ∃ k, s.stack = .enter (.lockRelease l) :: .waiting c :: k ∧
        s'.stack = .released :: .waiting c :: k := by
  cases h with
  | unlock l k v hstack =>
    refine ⟨[_], rfl, fun u l' c hmem => ?_⟩
    cases k with
    | nil => simp [callerWait] at hmem
    | cons f k =>
      cases f with
      | waiting c' =>
        simp only [callerWait, List.mem_singleton, Event.released.injEq, Option.some.injEq] at hmem
        obtain ⟨rfl, rfl, rfl⟩ := hmem
        exact ⟨rfl, k, hstack, rfl⟩
      | _ => simp [callerWait] at hmem
  | control m k b es h =>
    refine ⟨es, rfl, fun u l c hmem => ?_⟩
    cases h <;> simp at hmem
  | suspend | lock | exit | insertWhole | inserted | dispatchOld =>
    exact ⟨[_], rfl, fun u l c hmem => by simp at hmem⟩
  | fork | sigWake | semWake | dispatchNew =>
    exact ⟨[_, _], rfl, fun u l c hmem => by simp at hmem⟩
  | _ => exact ⟨[], rfl, by simp⟩

/-- Every sleeper is in a queue of the condition or on its way there. -/
def SleepersFound (s : State) : Prop :=
  ∀ t c l, asleep t c l s.hist = true → s.Queued c t ∨ s.FallsAsleep c t

/-- A thread that has been forked and not entered its body is not in a routine. -/
theorem StartOk.not_falling (ho : StartOk s) (h : s.FallsAsleep c t) :
    (s.tcb t).flag ≠ 1 ∧ t ≠ s.gThreadID + 1 := by
  obtain ⟨-, hmem, -⟩ := h
  have hpoint : s.point t ≠ [] := List.ne_nil_of_mem hmem
  refine ⟨fun hflag => ?_, ?_⟩
  · rcases ho.entered t hpoint with hstart | hentered
    · exact (ho.flag t hstart).1 hflag
    · exact hentered (ho.newborn t (Or.inl hflag)).1
  · intro heq
    subst heq
    obtain ⟨hentries, -, hnew⟩ := ho.unmade _ (Int.lt_add_one_of_le le_rfl)
    rcases ho.entered _ hpoint with hstart | hentered
    · exact hnew (Or.inr hstart)
    · exact hentered hentries

/-- Where a thread is on its way into the queue. -/
theorem WellShaped.falling {stack : List Frame} (h : WellShaped stack) {f : Frame}
    {k : List Frame} (hstack : stack = f :: k) (hf : f.isTimer = false) (hmem : .waiting c ∈ stack)
    (hnot : ∀ l, .enter (.lockRelease l) ∉ stack) :
    stack = [.waiting c, .user] ∨ stack = [.released, .waiting c, .user] ∨
      ∃ v, stack = [.ret v, .waiting c, .user] := by
  cases h with
  | base hb =>
    rw [← List.mem_singleton.mp hmem] at hb
    cases hb
  | call hc =>
    simp only [List.mem_cons, reduceCtorEq, List.not_mem_nil, or_false] at hmem
    exact Or.inl (by rw [hmem])
  | fork hin =>
    simp only [List.mem_cons, reduceCtorEq, List.not_mem_nil, or_false] at hmem
    rw [← hmem] at hin
    cases hin
  | @wait f' c' hin =>
    simp only [List.mem_cons, reduceCtorEq, List.not_mem_nil, or_false,
      Frame.waiting.injEq] at hmem
    rcases hmem with rfl | rfl
    · cases hin
    · cases f' with
      | released => exact Or.inr (Or.inl rfl)
      | ret v => exact Or.inr (Or.inr ⟨v, rfl⟩)
      | enter op =>
        cases op with
        | lockRelease l => exact absurd (List.mem_cons_self ..) (hnot l)
        | _ => cases hin
      | _ => cases hin
  | timer ht =>
    cases hstack
    rw [hf] at ht
    cases ht

/-- `t_wait` puts the running thread into the queue of its priority. -/
theorem tWaitBlock_queued {k : List Frame} (h : tWaitBlock k s c = some s')
    (hq : QueuesOk WaitQueues s) (hq' : QueuesOk WaitQueues s') :
    s'.Queued c s.currentRunningThread := by
  simp only [tWaitBlock, Option.bind_eq_bind, Option.bind_eq_some_iff, Option.some.injEq,
    setjmp_priority] at h
  obtain ⟨s₁, henq, rfl⟩ := h
  obtain ⟨-, store, -, rfl⟩ := enqueue_spec henq
  refine ⟨s.current.priority, ?_⟩
  have hmore := hq.contents_inserted hq' (q := .cond c s.current.priority) (by simp [WaitQueues])
    [s.currentRunningThread]
    (by simp [State.goto, State.setjmp, State.setTcb, State.disableTimer, insertedAt])
    (by simp [State.goto, State.setjmp, State.setTcb, State.disableTimer, removedAt])
  rw [hmore]
  exact List.mem_append_right _ (List.mem_singleton_self _)

/-- The running thread falls asleep if its stack says so. -/
theorem fallsAsleep_of_stack {f : Frame} {k : List Frame} (hstack : s.stack = f :: k)
    (hf : f.isTimer = false ∧ f.isSystem = false) (hmem : .waiting c ∈ f :: k)
    (hnot : ∀ l, .enter (.lockRelease l) ∉ f :: k)
    (hasleep : ∃ l, asleep s.currentRunningThread c l s.hist = true) :
    s.FallsAsleep c s.currentRunningThread := by
  have hexec : s.Executes .exec := ⟨by simp, f, k, hstack, hf.1, hf.2⟩
  refine ⟨hasleep, ?_⟩
  rw [hexec.point, hstack]
  exact ⟨hmem, hnot⟩

/-- A thread that executes on its way into the queue gets further on it. -/
theorem falling_step (hstep : step g m s = some s') (hr : Regular s) (hq : QueuesOk WaitQueues s)
    (hexec : s.Executes m) (hasleep : ∃ l, asleep s.currentRunningThread c l s'.hist = true)
    (hfalls : s.FallsAsleep c s.currentRunningThread) :
    s'.Queued c s.currentRunningThread ∨ s'.FallsAsleep c s.currentRunningThread := by
  obtain ⟨-, hmem, hnot⟩ := hfalls
  have hq' : QueuesOk WaitQueues s' := (step_trans hstep).queuesOk hq steady_waitQueues
  rw [hexec.point] at hmem hnot
  obtain ⟨hm, f, k, hstack, hf, -⟩ := hexec
  obtain rfl : m = .exec := by
    cases m with
    | exec => rfl
    | expire => exact absurd rfl hm
    | call | finish =>
      simp only [step] at hstep
      split at hstep
      · rename_i huser
        rw [huser] at hmem
        simp at hmem
      · cases hstep
  rcases hr.shaped.stack.falling hstack hf hmem hnot with h | h | ⟨v, h⟩
  · refine Or.inl (tWaitBlock_queued (k := [.user]) ?_ hq hq')
    simpa [step, exec, h] using hstep
  · right
    simp only [step, exec, h, Option.some.injEq] at hstep
    subst hstep
    exact fallsAsleep_of_stack (f := .ret .void) rfl ⟨rfl, rfl⟩ (by simp) (by simp) hasleep
  · right
    simp only [step, exec, h, Option.some.injEq] at hstep
    subst hstep
    exact fallsAsleep_of_stack (f := .waiting c) rfl ⟨rfl, rfl⟩ (by simp) (by simp) hasleep

theorem sleepersFound_step (hstep : step g m s = some s') (hr : Regular s)
    (hq : QueuesOk WaitQueues s) (ho : StartOk s) (hs : SleepersFound s) : SleepersFound s' := by
  have h := step_trans hstep
  have hq' : QueuesOk WaitQueues s' := h.queuesOk hq steady_waitQueues
  intro t c l hasleep
  obtain ⟨es, hhist, hreleased⟩ := h.history
  have hbefore := hasleep
  rw [hhist] at hbefore
  rcases asleep_append hbefore with hmem | ⟨hold, hnot⟩
  · obtain ⟨rfl, k, hstack, hstack'⟩ := hreleased t l c hmem
    refine Or.inr (fallsAsleep_of_stack hstack' ⟨rfl, rfl⟩ (by simp) ?_ ⟨l, hasleep⟩)
    intro l' hl'
    have hw := (h.shaped hr.shaped).stack
    rw [hstack'] at hw
    rcases List.mem_cons.mp hl' with hl' | hl'
    · cases hl'
    · rcases hw.below_mem rfl hl' with hl' | ⟨_, hl'⟩ | ⟨_, hl'⟩ <;> cases hl'
  · rcases hs t c l hold with ⟨p, hp⟩ | hfalls
    · refine Or.inl ⟨p, hq.stays hq' (by simp [WaitQueues]) hhist hp fun hrem => ?_⟩
      exact hnot p (removed_mem hrem)
    · obtain ⟨hflag, hid⟩ := ho.not_falling hfalls
      rcases h.point hr.parked t with hsame | ⟨rfl, hexec⟩ | ⟨hstarts, -⟩ | ⟨hnew, -⟩
      · refine Or.inr ⟨⟨l, hasleep⟩, ?_⟩
        rw [hsame]
        exact hfalls.2
      · exact falling_step hstep hr hq hexec ⟨l, hasleep⟩ hfalls
      · exact absurd hstarts.flag hflag
      · exact absurd hnew hid

/-- The queues of a condition are those of its table. -/
def InTable : QRef → Tid → Prop
  | .cond _ p, _ => 0 ≤ p ∧ p < 128
  | _, _ => True

theorem Trans.inTable (h : Trans g s m s') (hq : QueuesOk WaitQueues s)
    (hb : Booked (fun _ => False) InTable s) : Booked (fun _ => False) InTable s' := by
  refine h.booked hb (fun p => hq.cond _ p le_rfl) (hq.sem _ (Nat.lt_succ_self _))
    (steady_of_not_ready fun _ => id) ?_
  intro q t henq
  cases henq with
  | suspend q f k next hsus hslot =>
    cases hsus with
    | wait c k hstack =>
      simp only [Capacity.hasSlot, Bool.decide_and, Bool.and_eq_true, decide_eq_true_eq] at hslot
      exact hslot.2
    | _ => trivial
  | _ => trivial

/-- A `t_sig` on a condition with a waiter wakes one. -/
theorem tSig_wakes {lock : Option LockId} {k : List Frame} (h : tSig k s c lock = some s')
    (hq : QueuesOk WaitQueues s) (hb : Booked (fun _ => False) InTable s) (hqueued : s.Queued c t) :
    Wakes s s' c := by
  obtain ⟨p, hp⟩ := hqueued
  simp only [tSig, Option.bind_eq_bind, Option.bind_eq_some_iff] at h
  obtain ⟨_, -, _, -, h⟩ := h
  split at h
  · rename_i hscan
    obtain ⟨h0, hlt⟩ : 0 ≤ p ∧ p < 128 := hb.fits_of_mem hp
    have hzero : s.counter (.cond c p) = 0 := scan_eq_none.mp hscan p h0 hlt
    rw [hq.empty_of_count (q := .cond c p) (by simp [WaitQueues]) hzero] at hp
    cases hp
  · rename_i i hscan
    obtain ⟨-, -, hcount, -⟩ := scan_spec hscan
    simp only [Option.bind_eq_some_iff] at h
    obtain ⟨empty, hempty, h⟩ := h
    obtain rfl : empty = false := hq.not_empty (q := .cond c i) (by simp [WaitQueues]) hcount hempty
    simp only [Bool.false_eq_true, if_false, Option.bind_eq_some_iff, Option.some.injEq] at h
    obtain ⟨⟨u, s₁⟩, hdeq, s₂, henq, rfl⟩ := h
    obtain ⟨-, store, -, rfl⟩ := dequeue_spec hdeq
    obtain ⟨-, store', -, rfl⟩ := enqueue_spec henq
    exact ⟨i, u, by simp [State.enableTimer, State.goto, State.setTcb, State.disableTimer]⟩

theorem Initial.sleepersFound (h : Initial s) : SleepersFound s := by
  obtain ⟨f, v, p, hb⟩ := h.begun
  intro t c l hasleep
  simp [hb.hist, asleep] at hasleep

variable {ok : Move → State → Prop} {s₀ : State} {path : List (Move × State)}

theorem sleepersFound_of_run (h₀ : Initial s₀) (hrun : Run (step g) ok s₀ s) :
    SleepersFound s ∧ QueuesOk WaitQueues s ∧ Booked (fun _ => False) InTable s := by
  have hinv := hrun.invariant (I := fun a => Regular a ∧ QueuesOk WaitQueues a ∧ StartOk a ∧
    Booked (fun _ => False) InTable a ∧ SleepersFound a)
    ⟨h₀.regular, h₀.queuesOk, h₀.startOk, h₀.booked fun _ _ => trivial, h₀.sleepersFound⟩ ?_
  · exact ⟨hinv.2.2.2.2, hinv.2.1, hinv.2.2.2.1⟩
  · intro m a b hI _ hstep
    obtain ⟨hr, hq, ho, hb, hs⟩ := hI
    have h := step_trans hstep
    exact ⟨h.regular hr, h.queuesOk hq steady_waitQueues, h.startOk hr hq ho, h.inTable hq hb,
      sleepersFound_step hstep hr hq ho hs⟩

/-- Every `t_sig` finds all threads that sleep on its condition, and wakes one if there
is any, exactly when no thread is falling asleep on it at the time. -/
theorem sig_finds_sleepers_iff (h₀ : Initial s₀) (hpath : Path (step .statement) s₀ path s) :
    (∀ x ∈ path, FindsSleepers x.1 x.2) ↔ ∀ x ∈ path, NoneFallsAsleep x.1 x.2 := by
  have hany : ∀ x ∈ path, AnyTiming x.1 x.2 := fun _ _ => trivial
  refine forall₂_congr fun x hx => ?_
  obtain ⟨hs, hq, hb⟩ := sleepersFound_of_run h₀ (hpath.run_of_mem hany hx)
  constructor
  · intro hfinds hm c val lock k hstack t hfalls
    obtain ⟨l, hasleep⟩ := hfalls.1
    exact (hfinds hm c val lock k hstack t l hasleep).1
  · intro hnone hm c val lock k hstack t l hasleep
    have hqueued : x.2.Queued c t :=
      (hs t c l hasleep).elim id fun hfalls => hnone hm c val lock k hstack t hfalls
    refine ⟨hqueued, fun s' hstep => ?_⟩
    have hsig : tSig k x.2 c lock = some s' := by
      simpa [step, exec, hstack, enter] using hstep
    exact tSig_wakes hsig hq hb hqueued

/-- A thread is preempted in `t_wait` after the release of the lock; a second one
takes the lock and signals. -/
def preemptedFallingAsleep : List Move :=
  [.exec, .exec, .call (.tFork 0 .null 127), .exec, .exec, .call (.lockAcquire 0), .exec, .exec,
   .exec, .exec, .call (.tWait 0 (some 0)), .exec, .exec, .expire, .exec, .exec, .exec, .exec,
   .call (.lockAcquire 0), .exec, .exec, .exec, .exec, .call (.tSig 0 .null (some 0))]

/-- The signal of the second thread wakes nobody, although all calls are made with
the lock held. -/
theorem signal_lost :
    ∃ s₀ path s, Initial s₀ ∧ Path (step .statement) s₀ path s ∧
      (∀ x ∈ path, x.2.inMonitor = true) ∧ ¬ ∀ x ∈ path, FindsSleepers x.1 x.2 := by
  obtain ⟨s₀, path, s, h₀, hpath, hok, hgood⟩ := exists_path .statement
    (fun _ s => s.inMonitor = true) [.lock, .cond (some 0)] 127 preemptedFallingAsleep
    (fun s => s.stack = [.enter (.tSig 0 .null (some 0)), .user] && s.inMonitor &&
      asleep 1 0 0 s.hist && (step .statement .exec s).any fun s' => s'.hist = s.hist)
    (by decide +kernel)
  simp only [Bool.and_eq_true, decide_eq_true_eq, Option.any_eq_true] at hgood
  obtain ⟨⟨⟨hstack, hmonitor⟩, hasleep⟩, s', hstep, hhist⟩ := hgood
  refine ⟨s₀, _, s', h₀, hpath.snoc hstep, List.forall_mem_cons.mpr ⟨hmonitor, hok⟩,
    fun hfinds => ?_⟩
  obtain ⟨-, hwakes⟩ := hfinds _ (List.mem_cons_self ..) rfl 0 .null (some 0) _ hstack 1 0 hasleep
  obtain ⟨p, t, hwoken⟩ := hwakes s' hstep
  rw [hhist] at hwoken
  have hlength := congrArg List.length hwoken
  simp only [List.length_cons] at hlength
  omega

/-- A thread that has come to sleep is found. -/
theorem sig_finds_sleepers_iff_signal :
    ∃ (s₀ : State) (path : List (Move × State)) (s : State), Initial s₀ ∧
      s.contents (.ready 127) = [1] ∧
      ((∀ x ∈ path, FindsSleepers x.1 x.2) ↔ ∀ x ∈ path, NoneFallsAsleep x.1 x.2) := by
  obtain ⟨s₀, path, s, h₀, hpath, -, hgood⟩ := exists_path .statement AnyTiming
    [.lock, .cond (some 0)] 127
    [.exec, .exec, .call (.tFork 0 .null 126), .exec, .exec, .call (.lockAcquire 0), .exec, .exec,
     .exec, .exec, .call (.tWait 0 (some 0)), .exec, .exec, .exec, .exec, .exec, .exec, .exec,
     .call (.lockAcquire 0), .exec, .exec, .exec, .exec, .call (.tSig 0 .null (some 0)), .exec]
    (fun s => s.contents (.ready 127) = [1]) (by decide +kernel)
  exact ⟨s₀, path, s, h₀, by simpa using hgood, sig_finds_sleepers_iff h₀ hpath⟩

end UserThreads.Threads
