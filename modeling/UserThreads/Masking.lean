import UserThreads.Executions

/-!
The signal mask. A routine that saves its context is resumed with SIGVTALRM
blocked, and a timer handler is entered with it unblocked; so the mask at a
program point is known from the point itself, except in the thread's own code.
Two consequences: which returns leave the timer off, and when the busy loop of
`lock_acquire` can hang.
-/
namespace UserThreads.Threads

open LinkedCells Queue Runs

/-- What a program point says about the signal mask. Resumption points occur
only on top of a stack. -/
structure MaskOk (s : State) : Prop where
  masked : ∀ f k, s.stack = f :: k → f.isResume = true → s.blocked = true
  below : ∀ f ∈ s.stack.tail, f.isResume = false
  context : ∀ t k, (s.tcb t).context = some k → ∀ f ∈ k.tail, f.isResume = false
  handler : ∀ k, s.stack = .handler :: k → s.blocked = false
  ret : ∀ v k, s.stack = .ret v :: k → s.blocked = true →
    ∃ l, s.hist.head? = some (.acquired s.currentRunningThread l)

variable {g : Grain} {s s' : State} {m : Move} {k : List Frame} {f : Frame} {b : Bool}
  {es : List Event} {t : Tid}

theorem Suspends.stack {q : QRef} {next : Frame} (h : Suspends s q f k next) :
    ∃ f', s.stack = f' :: k := by
  cases h with
  | yield _ hstack | timer _ hstack | wait _ _ hstack | pass _ _ _ hstack => exact ⟨_, hstack⟩

/-- A frame that a control move leaves was below the top before, or in the stack when
the timer fired or the thread made a call; or it is new, and alone if it is a base. -/
theorem Control.mem (h : Control s m k b es) (hf : f ∈ k) :
    f ∈ s.stack.tail ∨ f ∈ s.stack ∧ (s.blocked = false ∨ f = .user) ∨
      f.isResume = false ∧ (f.isBase = false ∨ k = [f]) := by
  cases h with
  | expire hmask _ =>
    rcases List.mem_cons.mp hf with rfl | hf
    · exact Or.inr (Or.inr ⟨rfl, Or.inl rfl⟩)
    · exact Or.inr (Or.inl ⟨hf, Or.inl hmask⟩)
  | call op hstack =>
    simp only [List.mem_cons, List.not_mem_nil, or_false] at hf
    rcases hf with rfl | rfl
    · exact Or.inr (Or.inr ⟨rfl, Or.inl rfl⟩)
    · exact Or.inr (Or.inl ⟨by simp [hstack], Or.inr rfl⟩)
  | nullReturn _ _ hstack | ret _ _ hstack | waitedNull _ hstack | handled _ hstack =>
    rw [hstack]
    exact Or.inl hf
  | joinDone _ _ hstack | waitNull _ _ hstack | sigNone _ _ _ _ hstack
  | sigEmpty _ _ _ _ _ hstack | acquire _ _ hstack | forked _ _ hstack | enable _ _ hstack
  | joined _ _ hstack | waitedLock _ _ hstack | spinBusy _ _ _ hstack | spinFree _ _ hstack
  | resumed _ hstack =>
    rw [hstack]
    rcases List.mem_cons.mp hf with rfl | hf
    · exact Or.inr (Or.inr ⟨rfl, Or.inl rfl⟩)
    · exact Or.inl hf
  | waitLock c l k hstack =>
    rw [hstack]
    simp only [List.mem_cons] at hf
    rcases hf with rfl | rfl | hf
    · exact Or.inr (Or.inr ⟨rfl, Or.inl rfl⟩)
    · exact Or.inr (Or.inr ⟨rfl, Or.inl rfl⟩)
    · exact Or.inl hf
  | finish | start | wakeSkip | wakeHit | wakeEnd | testHit | testMiss | take | sitBottom | idle =>
    rw [List.mem_singleton.mp hf]
    exact Or.inr (Or.inr ⟨rfl, Or.inr rfl⟩)

/-- The resumption points that a control move leaves were below the top before,
unless the timer has fired. -/
theorem Control.resume_mem (h : Control s m k b es) (hf : f ∈ k) (hres : f.isResume = true) :
    f ∈ s.stack.tail ∨ s.blocked = false ∧ f ∈ s.stack := by
  rcases h.mem hf with htail | ⟨hmem, hmask | rfl⟩ | ⟨hnot, -⟩
  · exact Or.inl htail
  · exact Or.inr ⟨hmask, hmem⟩
  · cases hres
  · rw [hnot] at hres
    cases hres

theorem MaskOk.not_resume (hm : MaskOk s) (hmask : s.blocked = false) (hf : f ∈ s.stack) :
    f.isResume = false := by
  cases hstack : s.stack with
  | nil => simp [hstack] at hf
  | cons f' rest =>
    rw [hstack] at hf
    rcases List.mem_cons.mp hf with rfl | hf
    · by_contra hres
      have hblocked := hm.masked _ _ hstack (by simpa using hres)
      rw [hmask] at hblocked
      cases hblocked
    · exact hm.below f (by simpa [hstack] using hf)

/-- Only `Scheduler` makes a resumption point the top of the stack. -/
theorem Trans.not_resume (h : Trans g s m s') (hm : MaskOk s) (hf : f ∈ s'.stack) :
    f.isResume = false ∨ s'.blocked = true ∧ ∃ y u k store, s.stack = .sched :: k ∧
      s.store.qRemove (.ready y) = some (some u, store) ∧
      (s.tcb u).context = some s'.stack := by
  cases h with
  | control m k b es h =>
    left
    by_contra hres
    rcases h.resume_mem hf (by simpa using hres) with hmem | ⟨hmask, hmem⟩
    · exact hres (hm.below f hmem)
    · exact hres (hm.not_resume hmask hmem)
  | dispatchOld y u k k' store hstack _ _ hrem _ hcontext =>
    exact Or.inr ⟨rfl, y, u, k, store, hstack, hrem, hcontext⟩
  | suspend q f' k next store h =>
    left
    rw [List.mem_singleton.mp hf]
    cases h <;> rfl
  | fork f' v p k k' b store hstack _ _ caller _ hk =>
    left
    have hbelow : ∀ f ∈ k, f.isResume = false := fun f hf => hm.below f (by simpa [hstack] using hf)
    rcases hk with ⟨-, rfl, -⟩ | ⟨-, rfl, -⟩
    · rcases List.mem_cons.mp hf with rfl | hf
      · rfl
      rcases List.mem_cons.mp hf with rfl | hf
      · rfl
      · exact hbelow f hf
    · rcases List.mem_cons.mp hf with rfl | hf
      · rfl
      · exact hbelow f hf
  | unlock l k v hstack | lock l k v hstack | sigWake c val lock k i t store store' hstack
  | semWake i k v t store store' hstack | semValue op i k v v' hstack | semFree i k v hstack
  | newLock k hstack | newCond lock k hstack | newSem count k hstack =>
    left
    rcases List.mem_cons.mp hf with rfl | hf
    · rfl
    · exact hm.below f (by simpa [hstack] using hf)
  | join | exit | leave | record | insertWhole | insertCall | inserting | inserted | counted
  | dispatchNew =>
    left
    rw [List.mem_singleton.mp hf]
    rfl

/-- A context is saved with the stack below the program point of the call. -/
theorem Trans.context_tail (h : Trans g s m s') (hk : (s'.tcb t).context = some k) :
    (s.tcb t).context = some k ∨ k.tail = s.stack.tail := by
  have hupdate : ∀ (u : Tid) (b : Tcb), (Function.update s.tcb u b t).context = some k →
      (b.context = some k → (s.tcb u).context = some k ∨ k.tail = s.stack.tail) →
      (s.tcb t).context = some k ∨ k.tail = s.stack.tail := by
    intro u b hk hb
    by_cases htu : t = u
    · subst htu
      exact hb (by simpa only [Function.update_self] using hk)
    · rw [Function.update_of_ne htu] at hk
      exact Or.inl hk
  cases h with
  | suspend q f' k' next store h =>
    obtain ⟨_, hstack⟩ := h.stack
    refine hupdate _ _ hk fun hb => Or.inr ?_
    cases hb
    rw [hstack]
    rfl
  | join tid k' slot hstack =>
    refine hupdate _ _ hk fun hb => Or.inr ?_
    cases hb
    rw [hstack]
    rfl
  | fork | exit | leave => exact hupdate _ _ hk fun hb => by cases hb
  | sigWake | dispatchNew => exact hupdate _ _ hk Or.inl
  | _ => exact Or.inl hk

/-- A timer handler is entered unblocked, and a routine about to return is
unblocked unless it has just taken a lock. -/
theorem Control.top (h : Control s m k b es) (hs : WellShaped s.stack) :
    (∀ k', k = .handler :: k' → b = false) ∧ (∀ v k', k = .ret v :: k' → b = false) := by
  have hinner : ∀ {f' : Frame} {k : List Frame}, s.stack = f' :: k → f'.isCall = true →
      (∀ k', k = .handler :: k' → b = false) ∧ (∀ v k', k = .ret v :: k' → b = false) := by
    intro f' k hstack hcall
    rw [hstack] at hs
    rcases hs.below_inner hcall with rfl | ⟨_, -, rfl⟩ | ⟨_, -, rfl⟩ <;>
      exact ⟨by simp, by simp⟩
  cases h with
  | expire hmask _ => exact ⟨fun _ _ => hmask, by simp⟩
  | nullReturn _ _ hstack _ | ret _ _ hstack | waitedNull _ hstack _ => exact hinner hstack rfl
  | joinDone | sigNone | sigEmpty | forked | enable | joined | resumed | handled =>
    exact ⟨fun _ _ => rfl, fun _ _ _ => rfl⟩
  | _ => exact ⟨by simp, by simp⟩

theorem Trans.maskOk (h : Trans g s m s') (hs : Shaped s) (hm : MaskOk s) : MaskOk s' where
  masked f k hstack hres := by
    rcases h.not_resume hm (f := f) (by simp [hstack]) with hnot | ⟨hblocked, -⟩
    · rw [hnot] at hres
      cases hres
    · exact hblocked
  below f hf := by
    rcases h.not_resume hm (List.mem_of_mem_tail hf) with hnot | ⟨-, _, u, _, _, -, -, hcontext⟩
    · exact hnot
    · exact hm.context u _ hcontext f hf
  context t k hk := by
    rcases h.context_tail hk with hold | htail
    · exact hm.context t k hold
    · rw [htail]
      exact hm.below
  handler k hk := by
    cases h with
    | control m k' b es h => exact (h.top hs.stack).1 k hk
    | suspend q f k next store h => cases h <;> cases hk
    | fork _ _ _ _ _ _ _ _ _ _ _ _ hk' =>
      rcases hk' with ⟨-, rfl, -⟩ | ⟨-, rfl, -⟩ <;> cases hk
    | dispatchOld y t _ k' store _ _ _ _ _ hcontext =>
      have hres := hs.context _ _ hcontext
      rw [show k' = .handler :: k from hk] at hres
      cases hres with
      | intro hf _ => cases hf
    | _ => cases hk
  ret v k hk hb := by
    cases h with
    | control m k' b es h =>
      rw [show b = true from hb] at h
      cases (h.top hs.stack).2 v k hk
    | suspend q f k next store h => cases h <;> cases hk
    | fork _ _ _ _ _ _ _ _ _ _ _ _ hk' =>
      rcases hk' with ⟨-, rfl, -⟩ | ⟨-, rfl, rfl⟩
      · cases hk
      · cases hb
    | dispatchOld y t _ k' store _ _ _ _ _ hcontext =>
      have hres := hs.context _ _ hcontext
      rw [show k' = .ret v :: k from hk] at hres
      cases hres with
      | intro hf _ => cases hf
    | lock l => exact ⟨l, rfl⟩
    | unlock | sigWake | semWake | semValue | semFree | newLock | newCond | newSem => cases hb
    | _ => cases hk

theorem Initial.maskOk (h : Initial s) : MaskOk s := by
  obtain ⟨a, f, v, p, store, ha, -, -, rfl⟩ := h.spec
  refine ⟨?_, by simp, ?_, by simp, by simp⟩
  · intro f k hstack hres
    cases hstack
    cases hres
  · intro t k hk
    by_cases ht : t = 1
    · subst t
      simp at hk
    · simp [Function.update_of_ne ht, ha.created.tcb] at hk

section Executions

variable {ok : Move → State → Prop} {s₀ : State}

theorem maskOk_of_run (h₀ : Initial s₀) (hrun : Run (step g) ok s₀ s) : MaskOk s := by
  have h := hrun.invariant (I := fun s => Shaped s ∧ MaskOk s) ⟨h₀.shaped, h₀.maskOk⟩
    fun _ _ _ hs _ hstep => ⟨(step_trans hstep).shaped hs.1, (step_trans hstep).maskOk hs.1 hs.2⟩
  exact h.2

end Executions

section Returns

/-- A routine called by the thread's own code returns to it. -/
def ReturnsTo (s s' : State) : Prop :=
  ∃ f, f.isCall = true ∧ s.stack = [f, .user] ∧ step .statement .exec s = some s' ∧
    s'.stack = [.user]

/-- The return is that of a `t_wait` woken without a lock, or an error return. -/
def LeavesTimerOff (s : State) : Prop :=
  (∃ k, s.stack = .waited :: k ∧ s.current.arg = .null) ∨
    ∃ op k, s.stack = .enter op :: k ∧ NullReturn op

theorem holdsLock_mem {l : LockId} {hist : List Event} (h : holdsLock t l hist = true) :
    .acquired t l ∈ hist := by
  fun_induction holdsLock t l hist with
  | case1 => cases h
  | case2 _ _ rest hsame =>
    obtain ⟨rfl, rfl⟩ := hsame
    exact List.mem_cons_self ..
  | case4 => cases h
  | case3 _ _ _ _ ih | case5 _ _ _ _ _ ih | case6 _ _ _ _ ih =>
    exact List.mem_cons_of_mem _ (ih h)

theorem MaskOk.ret_holds (hm : MaskOk s) {v : Value} (hstack : s.stack = .ret v :: k)
    (hmask : s.blocked = true) : ∃ l, holdsLock s.currentRunningThread l s.hist = true := by
  obtain ⟨l, hl⟩ := hm.ret v k hstack hmask
  obtain ⟨rest, hrest⟩ := List.head?_eq_some_iff.mp hl
  exact ⟨l, by simp [hrest, holdsLock]⟩

/-- The three ways in which a routine returns to the thread's code. -/
theorem Trans.returns (h : Trans g s m s') (hm : MaskOk s) (hf : f.isCall = true)
    (hstack : s.stack = [f, .user]) (hstack' : s'.stack = [.user]) :
    s'.hist = s.hist ∧ ((∃ v, f = .ret v) ∧ s'.blocked = s.blocked ∨
      f = .waited ∧ s.current.arg = .null ∧ s'.blocked = true ∨
      ∃ op, f = .enter op ∧ NullReturn op ∧ s'.blocked = true) := by
  have hne : ∀ {f' : Frame} {k : List Frame}, f'.isCall = false → s.stack ≠ f' :: k := by
    intro f' k hf' hk
    rw [hstack] at hk
    cases hk
    rw [hf] at hf'
    cases hf'
  cases h with
  | control m k b es h =>
    cases h with
    | ret v k hk =>
      rw [hstack] at hk
      cases hk
      exact ⟨rfl, Or.inl ⟨⟨v, rfl⟩, rfl⟩⟩
    | nullReturn op k hk hop =>
      rw [hstack] at hk
      cases hk
      exact ⟨rfl, Or.inr (Or.inr ⟨op, rfl, hop, rfl⟩)⟩
    | waitedNull k hk harg =>
      have hmask := hm.masked _ _ hk rfl
      rw [hstack] at hk
      cases hk
      exact ⟨rfl, Or.inr (Or.inl ⟨rfl, harg, hmask⟩)⟩
    | handled k hk => exact absurd hk (hne rfl)
    | start k hk => exact absurd hk (hne rfl)
    | _ => cases hstack'
  | suspend q f' k next store h => cases h <;> cases hstack'
  | fork _ _ _ _ _ _ _ _ _ _ _ _ hk => rcases hk with ⟨-, rfl, -⟩ | ⟨-, rfl, -⟩ <;> cases hstack'
  | dispatchOld y t k k' store hk => exact absurd hk (hne rfl)
  | _ => cases hstack'

variable {s₀ : State}

/-- A routine returns to a thread that holds no lock with SIGVTALRM unblocked,
except from a `t_wait` woken without a lock and from the error returns. -/
theorem unblocked_on_return_iff (h₀ : Initial s₀)
    (hrun : Run (step .statement) AnyTiming s₀ s) (hret : ReturnsTo s s') :
    ((∀ l, holdsLock s.currentRunningThread l s'.hist = false) → s'.blocked = false) ↔
      ¬ LeavesTimerOff s ∨ ∃ l, holdsLock s.currentRunningThread l s.hist = true := by
  obtain ⟨f, hf, hstack, hstep, hstack'⟩ := hret
  have hm := maskOk_of_run h₀ hrun
  obtain ⟨hhist, hways⟩ := (step_trans hstep).returns hm hf hstack hstack'
  have hoff : s'.blocked = true → LeavesTimerOff s ∨
      ∃ l, holdsLock s.currentRunningThread l s.hist = true := by
    intro hmask
    rcases hways with ⟨⟨v, rfl⟩, hsame⟩ | ⟨rfl, harg, -⟩ | ⟨op, rfl, hop, -⟩
    · exact Or.inr (hm.ret_holds hstack (hsame ▸ hmask))
    · exact Or.inl (Or.inl ⟨_, hstack, harg⟩)
    · exact Or.inl (Or.inr ⟨op, _, hstack, hop⟩)
  have hon : LeavesTimerOff s → s'.blocked = true := by
    rintro (⟨k, hk, -⟩ | ⟨op, k, hk, -⟩) <;> rw [hstack] at hk <;> cases hk
    all_goals
      rcases hways with ⟨⟨v, hv⟩, -⟩ | ⟨-, -, hmask⟩ | ⟨_, -, -, hmask⟩
      · cases hv
      · exact hmask
      · exact hmask
  rw [hhist]
  constructor
  · intro h
    by_cases hlock : ∃ l, holdsLock s.currentRunningThread l s.hist = true
    · exact Or.inr hlock
    · refine Or.inl fun hleaves => ?_
      have hnone := h fun l => by
        by_contra hl
        exact hlock ⟨l, by simpa using hl⟩
      rw [hon hleaves] at hnone
      cases hnone
  · intro h hnone
    by_contra hmask
    rcases hoff (by simpa using hmask) with hleaves | ⟨l, hl⟩
    · rcases h with hnot | ⟨l, hl⟩
      · exact hnot hleaves
      · rw [hnone l] at hl
        cases hl
    · rw [hnone l] at hl
      cases hl

/-- A thread of priority 127 waits on a condition without a lock, and one of
priority 126 signals it and yields. -/
def waitWithoutLock : List Move :=
  [.exec, .exec, .call (.tFork 0 .null 126), .exec, .exec,
   .call (.tWait 0 none), .exec, .exec, .exec, .exec,
   .call (.tSig 0 .null none), .exec, .exec, .call .tYield, .exec, .exec]

def noLockTaken (hist : List Event) : Bool :=
  hist.all fun e => match e with
    | .acquired _ _ => false
    | _ => true

theorem holdsLock_of_noLockTaken {hist : List Event} (h : noLockTaken hist = true) (l : LockId) :
    holdsLock t l hist = false := by
  by_contra hl
  have hmem := List.all_eq_true.mp h _ (holdsLock_mem (by simpa using hl))
  cases hmem

/-- The waiter goes on with the timer off, although it holds no lock. -/
theorem wait_returns_blocked :
    ∃ s₀ s s', Initial s₀ ∧ Run (step .statement) AnyTiming s₀ s ∧ ReturnsTo s s' ∧
      (∀ l, holdsLock s.currentRunningThread l s'.hist = false) ∧ s'.blocked = true := by
  obtain ⟨s₀, s, h₀, hrun, hgood⟩ := exists_run .statement AnyTiming [.cond none] 127
    waitWithoutLock
    (fun s => s.stack = [.waited, .user] && (step .statement .exec s).any fun s' =>
      s'.stack = [.user] && s'.blocked && noLockTaken s'.hist) (by decide +kernel)
  simp only [Bool.and_eq_true, decide_eq_true_eq, Option.any_eq_true] at hgood
  obtain ⟨hstack, s', hstep, ⟨hstack', hmask⟩, hlock⟩ := hgood
  exact ⟨s₀, s, s', h₀, hrun, ⟨_, rfl, hstack, hstep, hstack'⟩,
    holdsLock_of_noLockTaken hlock, hmask⟩

/-- A `t_fork` of a thread of lower priority returns to its caller. -/
theorem unblocked_on_return_fork :
    ∃ s₀ s s', Initial s₀ ∧ ReturnsTo s s' ∧
      (((∀ l, holdsLock s.currentRunningThread l s'.hist = false) → s'.blocked = false) ↔
        ¬ LeavesTimerOff s ∨ ∃ l, holdsLock s.currentRunningThread l s.hist = true) := by
  obtain ⟨s₀, s, h₀, hrun, hgood⟩ := exists_run .statement AnyTiming [] 127
    [.exec, .exec, .call (.tFork 0 .null 126), .exec]
    (fun s => s.stack = [.ret (.int 2), .user] && (step .statement .exec s).any fun s' =>
      s'.stack = [.user]) (by decide +kernel)
  simp only [Bool.and_eq_true, decide_eq_true_eq, Option.any_eq_true] at hgood
  obtain ⟨hstack, s', hstep, hstack'⟩ := hgood
  have hret : ReturnsTo s s' := ⟨_, rfl, hstack, hstep, hstack'⟩
  exact ⟨s₀, s, s', h₀, hret, unblocked_on_return_iff h₀ hrun hret⟩

end Returns

section BusyWait

/-- The running thread tests a lock that is taken in the loop of `lock_acquire`
and cannot be preempted. -/
def Hung (s : State) : Prop :=
  s.blocked = true ∧ ∃ l k, s.stack = .spin l :: k ∧ s.shared l = some 1

/-- The next step enters the loop on lock `l` with SIGVTALRM blocked. -/
inductive EntersBlocked (s : State) (l : LockId) : Prop
  | call (k : List Frame) (hstack : s.stack = .enter (.lockAcquire l) :: k)
      (hmask : s.blocked = true)
  | resume (k : List Frame) (hstack : s.stack = .waited :: k) (harg : s.current.arg = .lock l)

/-- The loop is entered with SIGVTALRM blocked only on a lock that is free. -/
def SpinsFree (m : Move) (s : State) : Prop :=
  m = .exec → ∀ l, EntersBlocked s l → s.shared l ≠ some 1

/-- How the running thread comes to test a lock with SIGVTALRM blocked. -/
theorem Trans.spin_top {l : LockId} (h : Trans g s m s') (hs : Shaped s)
    (hk : s'.stack = .spin l :: k) (hmask : s'.blocked = true) :
    s'.shared = s.shared ∧
      (s.stack = .spin l :: k ∧ s.blocked = true ∨ m = .exec ∧ EntersBlocked s l) := by
  have hinner : ∀ {f' : Frame} {k' : List Frame}, s.stack = f' :: k' → f'.isCall = true →
      k' ≠ .spin l :: k := by
    intro f' k' hstack hcall
    have hw := hs.stack
    rw [hstack] at hw
    rcases hw.below_inner hcall with rfl | ⟨_, -, rfl⟩ | ⟨_, -, rfl⟩ <;> simp
  cases h with
  | control m k' b es h =>
    cases h with
    | acquire l' k' hstack =>
      cases hk
      exact ⟨rfl, Or.inr ⟨rfl, .call _ hstack hmask⟩⟩
    | waitedLock l' k' hstack harg =>
      cases hk
      exact ⟨rfl, Or.inr ⟨rfl, .resume _ hstack harg⟩⟩
    | spinBusy l' k' v hstack =>
      cases hk
      exact ⟨rfl, Or.inl ⟨hstack, hmask⟩⟩
    | nullReturn _ _ hstack _ | ret _ _ hstack | waitedNull _ hstack _ =>
      exact absurd hk (hinner hstack rfl)
    | handled => cases hmask
    | _ => cases hk
  | suspend q f k next store h => cases h <;> cases hk
  | fork _ _ _ _ _ _ _ _ _ _ _ _ hk' => rcases hk' with ⟨-, rfl, -⟩ | ⟨-, rfl, -⟩ <;> cases hk
  | dispatchOld y t _ k' store _ _ _ _ _ hcontext =>
    have hres := hs.context _ _ hcontext
    rw [show k' = .spin l :: k from hk] at hres
    cases hres with
    | intro hf _ => cases hf
  | _ => cases hk

theorem hung_step_iff (hs : Shaped s) (hm : MaskOk s) (hnot : ¬ Hung s)
    (hstep : step g m s = some s') : ¬ Hung s' ↔ SpinsFree m s := by
  constructor
  · intro hnot' heq l hl hshared
    subst heq
    apply hnot'
    cases hl with
    | call k hstack hmask =>
      simp only [step, exec, hstack, enter, Option.some.injEq] at hstep
      subst hstep
      exact ⟨hmask, l, k, rfl, hshared⟩
    | resume k hstack harg =>
      simp only [step, exec, hstack, tWaitResume, harg, Option.some.injEq] at hstep
      subst hstep
      exact ⟨hm.masked _ _ hstack rfl, l, k, rfl, hshared⟩
  · intro hfree h'
    obtain ⟨hmask, l, k, hk, hl⟩ := h'
    obtain ⟨hsame, ⟨hstack, hblocked⟩ | ⟨rfl, henters⟩⟩ := (step_trans hstep).spin_top hs hk hmask
    · exact hnot ⟨hblocked, l, k, hstack, hsame ▸ hl⟩
    · exact hfree rfl l henters (hsame ▸ hl)

variable {s₀ : State} {path : List (Move × State)}

/-- No state of an execution hangs in the busy loop exactly when the loop was
always entered with SIGVTALRM unblocked or on a free lock. -/
theorem never_hung_iff (h₀ : Initial s₀) (hpath : Path (step .statement) s₀ path s) :
    ((∀ x ∈ path, ¬ Hung x.2) ∧ ¬ Hung s) ↔ ∀ x ∈ path, SpinsFree x.1 x.2 := by
  have hany : ∀ x ∈ path, AnyTiming x.1 x.2 := fun _ _ => trivial
  refine hpath.forall_iff (I := fun a => Shaped a ∧ MaskOk a) (P := fun a => ¬ Hung a)
    (C := SpinsFree) hany ⟨h₀.shaped, h₀.maskOk⟩ ?_ ?_
  · obtain ⟨a, f, v, p, store, ha, -, -, rfl⟩ := h₀.spec
    intro h'
    obtain ⟨-, l, k, hk, -⟩ := h'
    cases hk
  · intro m a b hI hnot _ hstep
    obtain ⟨hs, hm⟩ := hI
    have htrans := step_trans hstep
    exact ⟨hung_step_iff hs hm hnot hstep, fun _ => ⟨htrans.shaped hs, htrans.maskOk hs hm⟩⟩

/-- A thread waits on a condition with lock 0; the signaller, which holds the
lock, is preempted after `t_sig`. -/
def preemptedSignaller : List Move :=
  [.exec, .exec, .call (.tFork 0 .null 126), .exec, .exec,
   .call (.lockAcquire 0), .exec, .exec, .exec, .exec,
   .call (.tWait 0 (some 0)), .exec, .exec, .exec, .exec, .exec, .exec, .exec,
   .call (.lockAcquire 0), .exec, .exec, .exec, .exec,
   .call (.tSig 0 .null (some 0)), .exec, .exec, .expire, .exec, .exec, .exec, .exec]

/-- The waiter then tests the lock with the timer off, and nobody can release it. -/
theorem waiter_hangs :
    ∃ s₀ path s, Initial s₀ ∧ Path (step .statement) s₀ path s ∧ Hung s := by
  obtain ⟨s₀, path, s, h₀, hpath, -, hgood⟩ := exists_path .statement AnyTiming
    [.lock, .cond (some 0)] 127 preemptedSignaller
    (fun s => s.stack = [.spin 0, .user] && s.blocked && s.shared 0 = some 1) (by decide +kernel)
  simp only [Bool.and_eq_true, decide_eq_true_eq] at hgood
  obtain ⟨⟨hstack, hmask⟩, hshared⟩ := hgood
  exact ⟨s₀, path, s, h₀, hpath, hmask, 0, _, hstack, hshared⟩

/-- A lock that is free is taken without waiting. -/
theorem never_hung_iff_acquire :
    ∃ (s₀ : State) (path : List (Move × State)) (s : State), Initial s₀ ∧ s.shared 0 = some 1 ∧
      (((∀ x ∈ path, ¬ Hung x.2) ∧ ¬ Hung s) ↔ ∀ x ∈ path, SpinsFree x.1 x.2) := by
  obtain ⟨s₀, path, s, h₀, hpath, -, hgood⟩ := exists_path .statement AnyTiming [.lock] 127
    [.exec, .exec, .call (.lockAcquire 0), .exec, .exec, .exec, .exec]
    (fun s => s.shared 0 = some 1) (by decide +kernel)
  exact ⟨s₀, path, s, h₀, by simpa using hgood, never_hung_iff h₀ hpath⟩

end BusyWait

end UserThreads.Threads
